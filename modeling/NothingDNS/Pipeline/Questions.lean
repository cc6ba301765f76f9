import NothingDNS.Pipeline.UpstreamData
/-!
# Responses answer the question asked

A key of the response cache is the text of the name (a hash if it is long), the type and the DO bit; not the class,
and the text does not tell a dot inside a label from one between labels. A cached response keeps the question it was
stored with, so a query of another class is sent the question and data of class IN (`other_class_answered`).
-/

namespace NothingDNS.Pipeline

open List

open NothingDNS.Dnssec

/-- Labels without a dot inside, and short enough not to be hashed. -/
def Tidy (n : Name) : Prop := (∀ l ∈ n, l ≠ [] ∧ '.' ∉ l) ∧ n.string.length ≤ maxKeyNameLen

instance (n : Name) : Decidable (Tidy n) := inferInstanceAs (Decidable (_ ∧ _))

theorem dotted_inj : ∀ {a b : List Text}, (∀ l ∈ a, '.' ∉ l) → (∀ l ∈ b, '.' ∉ l) →
    a.flatMap (· ++ ['.']) = b.flatMap (· ++ ['.']) → a = b
  | [], [], _, _, _ => rfl
  | [], m :: b, _, _, h => by simp at h
  | l :: a, [], _, _, h => by simp at h
  | l :: a, m :: b, ha, hb, h => by
    have hct : ∀ (x : Text) (rest : Text), '.' ∉ x → (x ++ ['.'] ++ rest).takeWhile (· ≠ '.') = x := by
      intro x rest hx
      rw [append_assoc, takeWhile_append_of_pos]
      · simp
      · intro c hc
        simp only [decide_eq_true_eq]
        rintro rfl
        exact hx hc
    rw [flatMap_cons, flatMap_cons] at h
    have hlm : l = m := by
      rw [← hct l (a.flatMap (· ++ ['.'])) (ha l mem_cons_self), h,
        hct m (b.flatMap (· ++ ['.'])) (hb m mem_cons_self)]
    subst hlm
    rw [dotted_inj (fun x hx => ha x (mem_cons_of_mem _ hx)) (fun x hx => hb x (mem_cons_of_mem _ hx))
      (append_cancel_left h)]

theorem lower_flatMap (n : Name) :
    Text.lower (n.flatMap fun l => l ++ ['.']) = (n.canonical).flatMap fun l => l ++ ['.'] := by
  rw [Name.canonical, flatMap_map, Text.lower, map_flatMap]
  congr 1
  funext l
  rw [map_append]
  rfl

theorem dot_notMem_lower {l : Text} (h : '.' ∉ l) : '.' ∉ l.lower := by
  intro hmem
  obtain ⟨c, hc, heq⟩ := mem_map.1 hmem
  rw [Text.toLower_eq_iff (by decide)] at heq
  exact h (heq ▸ hc)

theorem tidy_separated {a b : Name} (ha : Tidy a) (hb : Tidy b) (h : a.string.lower = b.string.lower) :
    a.canonical = b.canonical := by
  have hcs : ∀ {n : Name}, Tidy n → n ≠ [] → n.string.lower ≠ Text.lower ['.'] := by
    intro n hn hne hrt
    rw [Name.string, if_neg hne, lower_flatMap] at hrt
    cases n with
    | nil => exact hne rfl
    | cons l n =>
      obtain ⟨hl, hd⟩ := hn.1 l mem_cons_self
      cases l with
      | nil => exact hl rfl
      | cons c l =>
        have hh := congrArg head? hrt
        simp only [Name.canonical, Text.lower, map_cons, flatMap_cons, cons_append, head?_cons,
          Option.some.injEq] at hh
        have hc : c = '.' := (Text.toLower_eq_iff (by decide)).1 (hh.trans (by decide))
        exact hd (hc ▸ mem_cons_self)
  by_cases hna : a = []
  · by_cases hnb : b = []
    · rw [hna, hnb]
    · exact absurd (h.symm.trans (by rw [hna]; rfl)) (hcs hb hnb)
  · by_cases hnb : b = []
    · exact absurd (h.trans (by rw [hnb]; rfl)) (hcs ha hna)
    · rw [Name.string, Name.string, if_neg hna, if_neg hnb, lower_flatMap, lower_flatMap] at h
      have hno : ∀ {n : Name}, Tidy n → ∀ l ∈ n.canonical, '.' ∉ l := by
        intro n hn l hl
        obtain ⟨l', hl', rfl⟩ := mem_map.1 hl
        exact dot_notMem_lower (hn.1 l' hl').2
      exact dotted_inj (hno ha) (hno hb) h

variable {Client Net Z : Type} {C : Config Client Net Z} {s : State Net} {q : Query Client} {qn : Question}
  {w : World}

def Separates (C : Config Client Net Z) (used : Name → Prop) : Prop :=
  ∀ a b t d, used a → used b → C.key a t d = C.key b t d → a.canonical = b.canonical

theorem separates_tidy (C : Config Client Net Z) : Separates C Tidy := by
  intro a b t d ha hb h
  have hnm := congrArg Key.name h
  simp only [Config.key, makeKey, if_neg (Nat.not_lt.2 ha.2), if_neg (Nat.not_lt.2 hb.2)] at hnm
  exact tidy_separated ha hb hnm

def Echoes (questions : List Question) (asked : Question) : Prop :=
  questions = [] ∨ ∃ got, questions = [got] ∧ got.Same asked

/-- The query is of class IN and uses names the keys tell apart, the replies that are not compared with their query echo
its question, and those that are have a plain one. -/
structure Ordinary (C : Config Client Net Z) (used : Name → Prop) (q : Query Client) (w : World) : Prop where
  classIN : ∀ qn ∈ q.questions, qn.qclass = classIN
  name : ∀ qn ∈ q.questions, used qn.name
  target : ∀ qn ∈ q.questions, ∀ target, IsTarget C q qn target → used target
  upstream : ∀ uq raw, uq.purpose = .target → w.upstream uq = some raw → Echoes raw.questions uq.question
  forward : ∀ uq raw, uq.purpose = .forward → w.upstream uq = some raw → PlainQuestion uq raw
  resolved : ∀ qn ∈ q.questions, ∀ raw, w.resolved = .message raw → Echoes raw.questions qn

structure StoredFor (C : Config Client Net Z) (used : Name → Prop) (k : Key) (m : Msg) (asked : Question) : Prop where
  key : ∃ d, k = C.key asked.name asked.qtype d
  used : used asked.name
  classIN : asked.qclass = classIN
  echoes : Echoes m.questions asked

variable {m : Msg}

theorem Forwarded.question_same {raw : Msg} (h : Forwarded C s q qn w raw m)
    (ha : PlainQuestion (forwardQuery qn w) raw) : ∃ got, m.questions = [got] ∧ got.Same qn := by
  rw [(validateDNSSEC_ok h.validated).questions]
  exact h.same ha

variable {used : Name → Prop}

theorem admits_stored {rest : List Question} (hq : q.questions = qn :: rest)
    (ho : Ordinary C used q w) : Admits (StoredFor C used) (fun _ => True) C s q qn w := by
  have hmem : qn ∈ q.questions := by
    rw [hq]
    exact mem_cons_self
  refine ⟨fun raw m hf => ⟨⟨⟨q.do, rfl⟩, ho.name qn hmem, ho.classIN qn hmem, .inr (hf.question_same (ho.forward _ raw rfl hf.received))⟩,
    fun _ => trivial⟩,
    fun target raw ht hrw => ⟨⟨false, rfl⟩, ho.target qn hmem target ht, rfl, ?_⟩⟩
  exact ho.upstream _ raw rfl hrw

theorem StoredFor.same (hsp : Separates C used) {k : Key} {asked : Question}
    (h : StoredFor C used k m asked) (hk : k = clientKey C q qn) (hu : used qn.name)
    (hcl : qn.qclass = Pipeline.classIN) : asked.Same qn := by
  obtain ⟨d, hd⟩ := h.key
  have hkey := hd.symm.trans hk
  have hty : asked.qtype = qn.qtype := congrArg Key.qtype hkey
  have hdo : d = q.do := congrArg Key.doBit hkey
  rw [hty, hdo] at hkey
  exact ⟨hsp _ _ _ _ h.used hu hkey, hty, h.classIN.trans hcl.symm⟩

theorem Question.Same.trans {a b c : Question} (h₁ : a.Same b) (h₂ : b.Same c) : a.Same c :=
  ⟨h₁.1.trans h₂.1, h₁.2.1.trans h₂.2.1, h₁.2.2.trans h₂.2.2⟩

def AnswersQuery (q : Query Client) (qn : Question) (m : Msg) : Prop :=
  m.id = q.id ∧ ∃ got, m.questions = [got] ∧ got.Same qn

theorem answers_reply (hq : q.questions = [qn]) (nsTarget : List UInt8 → Option Name)
    (h : Echoes m.questions qn) : AnswersQuery q qn (reply nsTarget q m) := by
  obtain ⟨hid, -, -, -, hqs⟩ := reply_header (q := q) nsTarget m
  refine ⟨hid, ?_⟩
  rcases h with hnil | ⟨got, hg, hsm⟩
  · exact ⟨qn, by rw [hqs, if_pos hnil, hq], rfl, rfl, rfl⟩
  · refine ⟨got, ?_, hsm⟩
    rw [hqs, hg]
    rfl

theorem Plain.answers (hq : q.questions = [qn]) (h : Plain C s q qn w m) : AnswersQuery q qn m := by
  have hown : ∃ got, q.questions = [got] ∧ got.Same qn := ⟨qn, hq, rfl, rfl, rfl⟩
  cases h with
  | built | transfer => exact ⟨rfl, hown⟩
  | policy hl hap hm =>
    rcases applyRPZRule_spec hap hm with ⟨rcode, rfl⟩ | ⟨-, rfl⟩ | ⟨r, rfl, -⟩ <;> exact ⟨rfl, hown⟩

theorem aged_questions (m : Msg) (age : Nat) : (m.aged age).questions = m.questions := by
  unfold Msg.aged
  split <;> rfl

theorem Sends.answers (hsp : Separates C used) (hq : q.questions = [qn])
    (ho : Ordinary C used q w) (hs : Filled (StoredFor C used) (fun _ => True) s)
    (h : Sends C s q qn w m) : AnswersQuery q qn m := by
  have hmem : qn ∈ q.questions := by
    rw [hq]
    exact mem_cons_self
  have hsr : ∀ {e : Entry}, s.cache (clientKey C q qn) = some e → Echoes e.message.questions qn := by
    intro e he
    have hst := hs.cache _ _ he
    have hsm := hst.same hsp rfl (ho.name qn hmem) (ho.classIN qn hmem)
    exact hst.echoes.imp_right fun ⟨got, hg, h⟩ => ⟨got, hg, h.trans hsm⟩
  cases h with
  | plain hp => exact hp.answers hq
  | hit hgt rcode =>
    refine answers_reply hq _ ?_
    rw [aged_questions]
    exact hsr (Option.filter_eq_some_iff.1 hgt).1
  | stale hcc =>
    refine answers_reply hq _ ?_
    exact hsr hcc
  | nsec hfn => exact answers_reply hq _ (.inr ⟨_, rfl, rfl, rfl, (ho.classIN qn hmem).symm⟩)
  | zone sec hans hown hpol => exact answers_reply hq _ (.inr ⟨qn, hq, rfl, rfl, rfl⟩)
  | resolved hr hval hpol =>
    have hrw := ho.resolved qn hmem _ hr
    refine answers_reply hq _ ?_
    rw [(validateDNSSEC_ok hval).questions]
    exact hrw
  | forwarded hf => exact answers_reply hq _ (.inr (hf.question_same (ho.forward _ _ rfl hf.received)))
  | dns64 hsy hrw hid hqt hval hpol => exact answers_reply hq _ (.inr ⟨_, rfl, rfl, hqt.symm, rfl⟩)

theorem ordinary_echo (now : Nat) (addr : Addr) (verdict : ValidationResult) :
    Ordinary forwarder Tidy (addressQuery exampleName) (quietWorld now (echo false addr) verdict) := by
  refine ⟨by decide, by decide, ?_, ?_, ?_, ?_⟩
  · rintro qn - target (⟨z, records, h⟩ | ⟨records, h⟩) <;> cases h
  · intro uq raw _ h
    cases h
    exact .inr ⟨_, rfl, rfl, rfl, rfl⟩
  · rintro uq raw - ⟨⟩ got ⟨⟩
    exact .inl ⟨rfl, rfl, rfl⟩
  · intro qn _ raw h
    cases h

end NothingDNS.Pipeline
