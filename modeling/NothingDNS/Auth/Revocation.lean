import NothingDNS.Lib.Run
import NothingDNS.Auth.Store
/-!
# Revoked sessions (`internal/auth/auth.go`)

A revocation changes the table of the process only, so a token revoked after a save is valid again after a restart
(`revoked_token_returns`). The load drops a user's tokens older than the second of the last update.
-/

namespace NothingDNS.Auth

open List

/-! ## Calls and their history -/

inductive Act where
  | createUser (username password role : Text) (hash : Option (List UInt8)) (now : Nat)
  | updateUser (username password role : Text) (hash : Option (List UInt8)) (now : Nat)
  | deleteUser (username : Text) (now : Nat)
  | generateToken (username : Text) (expiry : Int) (random : Option Text) (now : Nat)
  | revokeToken (token : Text)
  | revokeAllTokens (username : Text)
  | validateToken (token : Text) (now : Nat)
  /-- Writing the file succeeds or leaves the old one. -/
  | saveTokensSigned (written : Bool)
  | restart (now : Nat)

structure World where
  store : Store
  file : Option TokenMap
  issued : List Token
  /-- Tokens that were revoked, one by one or with all of their user. -/
  revoked : List Text
  /-- Tokens whose user got another password or role or was deleted, with the time. -/
  outdated : List (Text × Nat)
  clock : Nat

def World.tokensOf (w : World) (username : Text) : List Text :=
  (w.issued.filter fun t => t.username = username).map Token.token

def World.outdate (w : World) (username : Text) (now : Nat) : World :=
  { w with outdated := (w.tokensOf username).map (·, now) ++ w.outdated }

def changesUser (s : Store) (username password role : Text) : Bool :=
  match updateChecks s username password role with
  | .error _ => false
  | .ok (user, role') => password ≠ [] ∨ role' ≠ user.role

section Steps

variable (sign : Text → Text)

def Act.run (w : World) : Act → World
  | .createUser username password role hash now =>
    { w with store := (Auth.createUser w.store username password role hash now).1, clock := now }
  | .updateUser username password role hash now =>
    let r := Auth.updateUser w.store username password role hash now
    let w' := if r.2.isOk ∧ changesUser w.store username password role = true then w.outdate username now else w
    { w' with store := r.1, clock := now }
  | .deleteUser username now =>
    let r := Auth.deleteUser w.store username
    let w' := if r.2.isOk then w.outdate username now else w
    { w' with store := r.1, clock := now }
  | .generateToken username expiry random now =>
    let r := Auth.generateToken sign w.store username expiry random now
    { w with
      store := r.1
      issued := match r.2 with
        | .ok t => t :: w.issued
        | .error _ => w.issued
      clock := now }
  | .revokeToken token =>
    { w with
      store := Auth.revokeToken w.store token
      revoked := if token ∈ w.issued.map Token.token then token :: w.revoked else w.revoked }
  | .revokeAllTokens username =>
    { w with store := Auth.revokeAllTokens w.store username, revoked := w.tokensOf username ++ w.revoked }
  | .validateToken token now => { w with store := (Auth.validateToken sign w.store token now).1, clock := now }
  | .saveTokensSigned written => { w with file := if written then some w.store.tokens else w.file }
  | .restart now => { w with store := Auth.restart sign w.store w.file now, clock := now }

def authStep (w : World) (a : Act) : Option World := some (a.run sign w)

/-- No token of the file was revoked, and those whose user was changed are older than the second of the
change. -/
def World.FileFits (w : World) : Prop :=
  ∀ file, w.file = some file → ∀ k t, file.lookup k = some t →
    k ∉ w.revoked ∧ ∀ τ, (k, τ) ∈ w.outdated → t.createdAt < wholeSecond τ

/-- The clock does not go back, random tokens are new, and a file that is loaded fits. -/
def Act.Fits (w : World) : Act → Prop
  | .createUser _ _ _ _ now => w.clock ≤ now
  | .updateUser _ _ _ _ now => w.clock ≤ now
  | .deleteUser _ now => w.clock ≤ now
  | .generateToken _ _ random now => w.clock ≤ now ∧ ∀ token, random = some token → token ∉ w.issued.map Token.token
  | .validateToken _ now => w.clock ≤ now
  | .restart now => w.clock ≤ now ∧ w.FileFits
  | _ => True

/-- The start: some users, each under its name, and nothing else. -/
structure World.Start (w : World) : Prop where
  keyed : ∀ k u, w.store.users.lookup k = some u → u.username = k
  tokens : w.store.tokens = ∅
  file : w.file = none
  issued : w.issued = []
  revoked : w.revoked = []
  outdated : w.outdated = []

end Steps

/-! ## What holds of every world -/

def World.Known (w : World) (k : Text) (t : Token) : Prop := t ∈ w.issued ∧ t.token = k

def World.Live (w : World) (k : Text) : Prop := k ∉ w.revoked ∧ ∀ τ, (k, τ) ∉ w.outdated

structure World.Inv (w : World) : Prop where
  keyed : ∀ k u, w.store.users.lookup k = some u → u.username = k
  unique : ∀ t ∈ w.issued, ∀ t' ∈ w.issued, t.token = t'.token → t = t'
  table : ∀ k t, w.store.tokens.lookup k = some t → w.Known k t ∧ w.Live k
  file : ∀ file, w.file = some file → ∀ k t, file.lookup k = some t → w.Known k t
  revoked : ∀ k ∈ w.revoked, k ∈ w.issued.map Token.token
  outdated : ∀ k τ, (k, τ) ∈ w.outdated → k ∈ w.issued.map Token.token ∧ τ ≤ w.clock
  /-- A user that is still there was updated no earlier than its tokens were outdated. -/
  updated : ∀ k τ, (k, τ) ∈ w.outdated → ∀ t ∈ w.issued, t.token = k → ∀ u, w.store.users.lookup t.username = some u →
    ∃ x, u.updatedAt = some x ∧ wholeSecond τ ≤ x

section Maps

theorem lookup_insert_cases {α : Type} {m : AList fun _ : Text => α} {k k' : Text} {t t' : α}
    (h : (m.insert k' t').lookup k = some t) : k = k' ∧ t = t' ∨ k ≠ k' ∧ m.lookup k = some t := by
  by_cases hk : k = k'
  · subst hk
    rw [AList.lookup_insert] at h
    exact .inl ⟨rfl, (Option.some.inj h).symm⟩
  · rw [AList.lookup_insert_ne hk] at h
    exact .inr ⟨hk, h⟩

theorem lookup_erase_some {α : Type} {m : AList fun _ : Text => α} {k k' : Text} {t : α}
    (h : (m.erase k').lookup k = some t) : k ≠ k' ∧ m.lookup k = some t := by
  by_cases hk : k = k'
  · subst hk
    rw [AList.lookup_erase] at h
    cases h
  · rw [AList.lookup_erase_ne hk] at h
    exact ⟨hk, h⟩

theorem lookup_keepOnly {p : Text → Token → Bool} {m : TokenMap} {k : Text} {t : Token}
    (h : (keepOnly p m).lookup k = some t) : m.lookup k = some t ∧ p k t = true := by
  suffices hfl : ∀ (es : List (Sigma fun _ : Text => Token)) (kept : TokenMap),
      (es.foldl (fun kept e => if p e.1 e.2 then kept.insert e.1 e.2 else kept) kept).lookup k = some t →
        kept.lookup k = some t ∨ ⟨k, t⟩ ∈ es ∧ p k t = true by
    rcases hfl m.entries ∅ h with hnn | ⟨hmem, hp⟩
    · cases hnn
    · exact ⟨AList.mem_lookup_iff.2 hmem, hp⟩
  intro es
  induction es with
  | nil => exact fun _ h => .inl h
  | cons e es ih =>
    intro kept hes
    rcases ih _ hes with hkp | ⟨hmem, hp⟩
    · dsimp only at hkp
      split_ifs at hkp with he
      · rcases lookup_insert_cases hkp with ⟨rfl, rfl⟩ | ⟨-, hold⟩
        · exact .inr ⟨mem_cons_self, he⟩
        · exact .inl hold
      · exact .inl hkp
    · exact .inr ⟨mem_cons_of_mem _ hmem, hp⟩

end Maps

/-! ## What the calls do to the tokens and the users -/

section Calls

variable {s : Store} {k : Text} {t : Token}

@[simp] theorem dropSession_tokens (username : Text) : (dropSession s username).tokens = s.tokens := by
  unfold dropSession
  split_ifs <;> rfl

@[simp] theorem dropSession_users (username : Text) : (dropSession s username).users = s.users := by
  unfold dropSession
  split_ifs <;> rfl

@[simp] theorem makeRoom_users (username : Text) : (makeRoom s username).users = s.users := by
  unfold makeRoom
  split_ifs
  · rfl
  · dsimp only
    split
    · rfl
    · exact dropSession_users username
  · rfl

theorem lookup_makeRoom {username : Text} (h : (makeRoom s username).tokens.lookup k = some t) :
    s.tokens.lookup k = some t := by
  unfold makeRoom at h
  split_ifs at h
  · exact h
  · dsimp only at h
    split at h
    · exact h
    · rw [dropSession_tokens] at h
      exact (lookup_erase_some h).2
  · exact h

theorem lookup_revokeToken {token : Text} (h : (revokeToken s token).tokens.lookup k = some t) :
    k ≠ token ∧ s.tokens.lookup k = some t := by
  unfold revokeToken at h
  have hsm : ∀ s' : Store, s'.tokens = s.tokens → (s'.tokens.erase token).lookup k = some t →
      k ≠ token ∧ s.tokens.lookup k = some t := by
    intro s' heq h'
    rw [heq] at h'
    exact lookup_erase_some h'
  refine hsm _ ?_ h
  split
  · rfl
  split_ifs
  · exact dropSession_tokens _
  · rfl

@[simp] theorem revokeToken_users (token : Text) : (revokeToken s token).users = s.users := by
  unfold revokeToken
  dsimp only
  split
  · rfl
  split_ifs
  · exact dropSession_users _
  · rfl

theorem lookup_revokeAllTokens {username : Text} (h : (revokeAllTokens s username).tokens.lookup k = some t) :
    s.tokens.lookup k = some t ∧ t.username ≠ username := by
  obtain ⟨hold, hp⟩ := lookup_keepOnly h
  exact ⟨hold, of_decide_eq_true hp⟩

theorem validateToken_users (sign : Text → Text) (token : Text) (now : Nat) :
    (validateToken sign s token now).1.users = s.users := by
  unfold validateToken
  split
  · rfl
  split_ifs
  · rfl
  · exact dropSession_users _
  · split <;> rfl

theorem lookup_validateToken {sign : Text → Text} {token : Text} {now : Nat}
    (h : (validateToken sign s token now).1.tokens.lookup k = some t) : s.tokens.lookup k = some t := by
  unfold validateToken at h
  split at h
  · exact h
  split_ifs at h
  · exact h
  · rw [dropSession_tokens] at h
    exact (lookup_erase_some h).2
  · split at h <;> exact h

theorem restart_users (sign : Text → Text) (file : Option TokenMap) (now : Nat) :
    (restart sign s file now).users = s.users := by
  unfold restart loadTokensSigned
  split
  · rfl
  · split <;> rfl

theorem lookup_restart {sign : Text → Text} {file : Option TokenMap} {now : Nat}
    (h : (restart sign s file now).tokens.lookup k = some t) :
    ∃ f, file = some f ∧ f.lookup k = some t ∧ keepsLoaded s.users now t = true := by
  unfold restart loadTokensSigned at h
  split at h
  · cases h
  next f =>
    split at h
    · cases h
    next tokens htk =>
      unfold prepareLoadedTokens at htk
      split at htk
      · cases htk
      obtain rfl := Except.ok.inj htk
      obtain ⟨hf, hkp⟩ := lookup_keepOnly h
      exact ⟨f, rfl, hf, hkp⟩

theorem updateUser_cases (s : Store) (username password role : Text) (hash : Option (List UInt8)) (now : Nat) :
    ((updateUser s username password role hash now).2.isOk = false ∧
      (updateUser s username password role hash now).1 = s) ∨
    ∃ u u' : User, s.users.lookup username = some u ∧ u'.username = u.username ∧
      u'.updatedAt = some (wholeSecond now) ∧ (updateUser s username password role hash now).2.isOk = true ∧
      (updateUser s username password role hash now).1 =
        if changesUser s username password role then revokeAllTokens { s with users := s.users.insert username u' } username
        else { s with users := s.users.insert username u' } := by
  unfold updateUser changesUser
  cases hch : updateChecks s username password role with
  | error err => exact .inl ⟨rfl, rfl⟩
  | ok r =>
    obtain ⟨user, role'⟩ := r
    have hlk : s.users.lookup username = some user := by
      unfold updateChecks at hch
      split at hch
      · cases hch
      split at hch
      · cases hch
      split at hch
      · cases hch
      next user' hlk =>
        dsimp only at hch
        split at hch
        · cases hch
        · rw [hlk, (Prod.mk.inj (Except.ok.inj hch)).1]
    dsimp only
    split
    · exact .inl ⟨rfl, rfl⟩
    next hash' _ =>
      refine .inr ⟨user, { user with hash := hash', role := role', updatedAt := some (wholeSecond now) }, hlk, rfl, rfl, rfl, ?_⟩
      by_cases hcn : password ≠ [] ∨ role' ≠ user.role
      · rw [if_pos hcn, if_pos (decide_eq_true hcn)]
      · rw [if_neg hcn, if_neg (by simpa using hcn)]

end Calls

theorem wholeSecond_mono {a b : Nat} (h : a ≤ b) : wholeSecond a ≤ wholeSecond b :=
  Nat.mul_le_mul_right _ (Nat.div_le_div_right h)

section Invariant

variable {w : World}

theorem World.mem_tokensOf {username k : Text} (h : k ∈ w.tokensOf username) :
    ∃ t ∈ w.issued, t.username = username ∧ t.token = k := by
  obtain ⟨t, ht, rfl⟩ := mem_map.1 h
  obtain ⟨his, hu⟩ := mem_filter.1 ht
  exact ⟨t, his, of_decide_eq_true hu, rfl⟩

theorem World.Inv.setStore (h : w.Inv) {s : Store} {now : Nat} (hcl : w.clock ≤ now)
    (htk : ∀ k t, s.tokens.lookup k = some t → w.Known k t ∧ w.Live k)
    (hus : ∀ k u, s.users.lookup k = some u → u.username = k ∧
      (w.store.users.lookup k = some u ∨ u.updatedAt = some (wholeSecond now))) :
    World.Inv { w with store := s, clock := now } where
  __ := h
  keyed k u hu := (hus k u hu).1
  table := htk
  outdated k τ hk := ⟨(h.outdated k τ hk).1, (h.outdated k τ hk).2.trans hcl⟩
  updated k τ hk t ht htn u hu := by
    rcases (hus _ u hu).2 with hold | hnw
    · exact h.updated k τ hk t ht htn u hold
    · exact ⟨_, hnw, wholeSecond_mono ((h.outdated k τ hk).2.trans hcl)⟩

theorem World.Inv.shrink (h : w.Inv) {s : Store} {now : Nat} (hcl : w.clock ≤ now) (hus : s.users = w.store.users)
    (htk : ∀ k t, s.tokens.lookup k = some t → w.store.tokens.lookup k = some t) :
    World.Inv { w with store := s, clock := now } := by
  refine h.setStore hcl (fun k t ht => h.table k t (htk k t ht)) fun k u hu => ?_
  rw [hus] at hu
  exact ⟨h.keyed k u hu, .inl hu⟩

theorem World.Inv.revoke (h : w.Inv) {ks : List Text} (hks : ∀ k ∈ ks, k ∈ w.issued.map Token.token)
    (htb : ∀ k t, w.store.tokens.lookup k = some t → k ∉ ks) : World.Inv { w with revoked := ks ++ w.revoked } where
  __ := h
  table k t ht := by
    obtain ⟨hkn, hlv⟩ := h.table k t ht
    exact ⟨hkn, fun hmem => (mem_append.1 hmem).elim (htb k t ht) hlv.1, hlv.2⟩
  revoked k hk := (mem_append.1 hk).elim (hks k) (h.revoked k)

theorem World.mem_outdated {username k : Text} {now τ : Nat} (h : (k, τ) ∈ (w.outdate username now).outdated) :
    (τ = now ∧ ∃ t ∈ w.issued, t.username = username ∧ t.token = k) ∨ (k, τ) ∈ w.outdated := by
  refine (mem_append.1 h).imp_left fun hnw => ?_
  obtain ⟨k', hk', heq⟩ := mem_map.1 hnw
  cases heq
  exact ⟨rfl, World.mem_tokensOf hk'⟩

theorem World.Inv.outdate (h : w.Inv) {username : Text}
    (htb : ∀ k t, w.store.tokens.lookup k = some t → t.username ≠ username)
    (hus : ∀ u, w.store.users.lookup username = some u → u.updatedAt = some (wholeSecond w.clock)) :
    (w.outdate username w.clock).Inv where
  __ := h
  table k t ht := by
    obtain ⟨hkn, hlv⟩ := h.table k t ht
    refine ⟨hkn, hlv.1, fun τ hτ => ?_⟩
    rcases World.mem_outdated hτ with ⟨-, t', ht', hu', htk'⟩ | hold
    · have hsm := h.unique t hkn.1 t' ht' (hkn.2.trans htk'.symm)
      exact htb _ t ht (hsm ▸ hu')
    · exact hlv.2 τ hold
  outdated k τ hτ := by
    rcases World.mem_outdated hτ with ⟨rfl, t', ht', -, rfl⟩ | hold
    · exact ⟨mem_map_of_mem ht', Nat.le_refl _⟩
    · exact h.outdated k τ hold
  updated k τ hτ t ht htk u hu := by
    rcases World.mem_outdated hτ with ⟨rfl, t', ht', hu', htk'⟩ | hold
    · have hsm := h.unique t ht t' ht' (htk.trans htk'.symm)
      rw [hsm, hu'] at hu
      exact ⟨_, hus u hu, Nat.le_refl _⟩
    · exact h.updated k τ hold t ht htk u hu

theorem World.Inv.issue (h : w.Inv) {t : Token} (hfr : t.token ∉ w.issued.map Token.token) : World.Inv { w with
      store := { w.store with tokens := w.store.tokens.insert t.token t }
      issued := t :: w.issued } where
  keyed := h.keyed
  unique a ha b hb heq := by
    rcases mem_cons.1 ha with hat | hold <;> rcases mem_cons.1 hb with hbt | hold'
    · exact hat.trans hbt.symm
    · exact absurd (hat ▸ heq ▸ mem_map_of_mem hold') hfr
    · exact absurd (hbt ▸ heq ▸ mem_map_of_mem hold) hfr
    · exact h.unique a hold b hold' heq
  table k t' ht' := by
    rcases lookup_insert_cases ht' with ⟨rfl, rfl⟩ | ⟨-, hold⟩
    · exact ⟨⟨mem_cons_self, rfl⟩, fun hk => hfr (h.revoked _ hk), fun τ hτ => hfr (h.outdated _ τ hτ).1⟩
    · obtain ⟨⟨his, htk⟩, hlv⟩ := h.table k t' hold
      exact ⟨⟨mem_cons_of_mem _ his, htk⟩, hlv⟩
  file f hf k t' ht' := ⟨mem_cons_of_mem _ (h.file f hf k t' ht').1, (h.file f hf k t' ht').2⟩
  revoked k hk := mem_cons_of_mem _ (h.revoked k hk)
  outdated k τ hτ := ⟨mem_cons_of_mem _ (h.outdated k τ hτ).1, (h.outdated k τ hτ).2⟩
  updated k τ hτ t' ht' htk u hu := by
    rcases mem_cons.1 ht' with rfl | ht'
    · exact absurd (htk ▸ (h.outdated k τ hτ).1) hfr
    · exact h.updated k τ hτ t' ht' htk u hu

theorem World.Inv.live_of_loaded (h : w.Inv) (hft : w.FileFits) {file : TokenMap} (hfl : w.file = some file)
    {k : Text} {t : Token} (ht : file.lookup k = some t) {now : Nat} (hkp : keepsLoaded w.store.users now t = true) :
    w.Live k := by
  obtain ⟨hrv, hold⟩ := hft file hfl k t ht
  refine ⟨hrv, fun τ hτ => ?_⟩
  obtain ⟨his, htk⟩ := h.file file hfl k t ht
  unfold keepsLoaded at hkp
  split at hkp
  · cases hkp
  next u hu =>
    obtain ⟨x, hx, hle⟩ := h.updated k τ hτ t his htk u hu
    have holder : t.createdAt < x := Nat.lt_of_lt_of_le (hold τ hτ) hle
    simp [hx, holder] at hkp

theorem World.Inv.revokeUser (h : w.Inv) {users : UserMap} {username : Text} {now : Nat} (hcl : w.clock ≤ now)
    (hu : ∀ k u, users.lookup k = some u → u.username = k ∧
      (w.store.users.lookup k = some u ∨ u.updatedAt = some (wholeSecond now)))
    (hus : ∀ u, users.lookup username = some u → u.updatedAt = some (wholeSecond now)) :
    World.Inv (World.outdate { w with
      store := revokeAllTokens { w.store with users := users } username
      clock := now } username now) := by
  have hst : World.Inv { w with store := revokeAllTokens { w.store with users := users } username, clock := now } :=
    h.setStore hcl (fun k t ht => h.table k t (lookup_revokeAllTokens ht).1) hu
  exact hst.outdate (fun k t ht => (lookup_revokeAllTokens ht).2) hus

theorem World.Inv.createUser (sign : Text → Text) (h : w.Inv) (username password role : Text) (hash : Option (List UInt8))
    {now : Nat} (hcl : w.clock ≤ now) : ((Act.createUser username password role hash now).run sign w).Inv := by
  have hsm : World.Inv { w with clock := now } := h.shrink hcl rfl fun _ _ ht => ht
  show World.Inv { w with store := (Auth.createUser w.store username password role hash now).1, clock := now }
  unfold Auth.createUser
  split
  · exact hsm
  split
  · exact hsm
  split
  · exact hsm
  split
  · exact hsm
  split
  · exact hsm
  refine h.setStore hcl h.table fun k u hu => ?_
  rcases lookup_insert_cases hu with ⟨rfl, rfl⟩ | ⟨-, hold⟩
  · exact ⟨rfl, .inr rfl⟩
  · exact ⟨h.keyed k u hold, .inl hold⟩

theorem World.Inv.updateUser (sign : Text → Text) (h : w.Inv) (username password role : Text) (hash : Option (List UInt8))
    {now : Nat} (hcl : w.clock ≤ now) : ((Act.updateUser username password role hash now).run sign w).Inv := by
  rcases updateUser_cases w.store username password role hash now with ⟨hfl, hsm⟩ | ⟨u, u', hu, hnm, hno, hok, hnw⟩
  · have hrn : (Act.updateUser username password role hash now).run sign w = { w with store := w.store, clock := now } := by
      simp only [Act.run, hfl, hsm, Bool.false_eq_true, false_and, if_false]
    rw [hrn]
    exact h.shrink hcl rfl fun k t ht => ht
  have hus : ∀ k v, (w.store.users.insert username u').lookup k = some v →
      v.username = k ∧ (w.store.users.lookup k = some v ∨ v.updatedAt = some (wholeSecond now)) := by
    intro k v hv
    rcases lookup_insert_cases hv with ⟨rfl, rfl⟩ | ⟨-, hold⟩
    · exact ⟨hnm.trans (h.keyed k u hu), .inr hno⟩
    · exact ⟨h.keyed k v hold, .inl hold⟩
  by_cases hch : changesUser w.store username password role = true
  · rw [if_pos hch] at hnw
    have hrn : (Act.updateUser username password role hash now).run sign w =
        World.outdate { w with
          store := Auth.revokeAllTokens { w.store with users := w.store.users.insert username u' } username
          clock := now } username now := by
      simp only [Act.run, hok, hch, hnw, and_self, if_true, World.outdate, World.tokensOf]
    rw [hrn]
    refine h.revokeUser hcl hus fun v hv => ?_
    rw [AList.lookup_insert] at hv
    exact Option.some.inj hv ▸ hno
  rw [if_neg hch] at hnw
  have hrn : (Act.updateUser username password role hash now).run sign w =
      { w with store := { w.store with users := w.store.users.insert username u' }, clock := now } := by
    simp only [Act.run, hch, hnw, Bool.false_eq_true, and_false, if_false]
  rw [hrn]
  exact h.setStore hcl h.table hus

theorem World.Inv.deleteUser (sign : Text → Text) (h : w.Inv) (username : Text) {now : Nat} (hcl : w.clock ≤ now) :
    ((Act.deleteUser username now).run sign w).Inv := by
  by_cases hnn : w.store.users.lookup username = none
  · have hrn : (Act.deleteUser username now).run sign w = { w with store := w.store, clock := now } := by
      simp [Act.run, Auth.deleteUser, hnn, Except.isOk, Except.toBool]
    rw [hrn]
    exact h.shrink hcl rfl fun k t ht => ht
  have hrn : (Act.deleteUser username now).run sign w = World.outdate { w with
      store := Auth.revokeAllTokens { w.store with users := w.store.users.erase username } username
      clock := now } username now := by
    simp [Act.run, Auth.deleteUser, hnn, Except.isOk, Except.toBool, World.outdate, World.tokensOf]
  rw [hrn]
  refine h.revokeUser hcl (fun k u hu => ?_) fun u hu => absurd rfl (lookup_erase_some hu).1
  obtain ⟨-, hold⟩ := lookup_erase_some hu
  exact ⟨h.keyed k u hold, .inl hold⟩

theorem World.Inv.generateToken (sign : Text → Text) (h : w.Inv) (username : Text) (expiry : Int) {random : Option Text}
    {now : Nat} (hcl : w.clock ≤ now) (hfr : ∀ token, random = some token → token ∉ w.issued.map Token.token) :
    ((Act.generateToken username expiry random now).run sign w).Inv := by
  have hrm : World.Inv { w with store := makeRoom w.store username, clock := now } :=
    h.shrink hcl (makeRoom_users username) fun k t ht => lookup_makeRoom ht
  simp only [Act.run, Auth.generateToken]
  cases hu : w.store.users.lookup username with
  | none => exact h.shrink hcl rfl fun k t ht => ht
  | some user =>
    cases random with
    | none => exact hrm
    | some token => exact hrm.issue (t := ⟨token, sign token, username, user.role, now + expiry, now⟩) (hfr token rfl)

theorem World.Inv.revokeToken (sign : Text → Text) (h : w.Inv) (token : Text) : ((Act.revokeToken token).run sign w).Inv := by
  have hst : World.Inv { w with store := Auth.revokeToken w.store token } :=
    h.shrink (Nat.le_refl w.clock) (revokeToken_users token) fun k t ht => (lookup_revokeToken ht).2
  simp only [Act.run]
  split_ifs with his
  · have hon : ∀ k ∈ [token], k ∈ w.issued.map Token.token := fun k hk => mem_singleton.1 hk ▸ his
    refine hst.revoke hon fun k t ht hk => ?_
    exact (lookup_revokeToken ht).1 (mem_singleton.1 hk)
  · exact hst

theorem World.Inv.revokeAllTokens (sign : Text → Text) (h : w.Inv) (username : Text) :
    ((Act.revokeAllTokens username).run sign w).Inv := by
  have hst : World.Inv { w with store := Auth.revokeAllTokens w.store username } :=
    h.shrink (Nat.le_refl w.clock) rfl fun k t ht => (lookup_revokeAllTokens ht).1
  refine hst.revoke (fun k hk => ?_) fun k t ht hk => ?_
  · obtain ⟨t, ht, -, rfl⟩ := World.mem_tokensOf hk
    exact mem_map_of_mem ht
  · obtain ⟨t', ht', hu, htk⟩ := World.mem_tokensOf hk
    have hkn := (h.table k t (lookup_revokeAllTokens ht).1).1
    exact (lookup_revokeAllTokens ht).2 (h.unique t hkn.1 t' ht' (hkn.2.trans htk.symm) ▸ hu)

theorem World.Inv.step (sign : Text → Text) (h : w.Inv) (a : Act) (hft : a.Fits w) : (a.run sign w).Inv := by
  cases a with
  | createUser username password role hash now => exact h.createUser sign username password role hash hft
  | updateUser username password role hash now => exact h.updateUser sign username password role hash hft
  | deleteUser username now => exact h.deleteUser sign username hft
  | generateToken username expiry random now => exact h.generateToken sign username expiry hft.1 hft.2
  | revokeToken token => exact h.revokeToken sign token
  | revokeAllTokens username => exact h.revokeAllTokens sign username
  | validateToken token now =>
    exact h.shrink hft (validateToken_users sign token now) fun k t ht => lookup_validateToken ht
  | saveTokensSigned written =>
    refine { h with file := fun f hf k t ht => ?_ }
    cases written with
    | true =>
      obtain rfl := Option.some.inj (show some w.store.tokens = some f from hf)
      exact (h.table k t ht).1
    | false => exact h.file f hf k t ht
  | restart now =>
    refine h.setStore hft.1 (fun k t ht => ?_) fun k u hu => ?_
    · obtain ⟨f, hf, hlk, hkp⟩ := lookup_restart ht
      exact ⟨h.file f hf k t hlk, h.live_of_loaded hft.2 hf hlk hkp⟩
    · rw [restart_users] at hu
      exact ⟨h.keyed k u hu, .inl hu⟩

theorem World.Start.inv (h : w.Start) : w.Inv where
  keyed := h.keyed
  unique t ht := by rw [h.issued] at ht; cases ht
  table k t ht := by rw [h.tokens] at ht; cases ht
  file f hf := by rw [h.file] at hf; cases hf
  revoked k hk := by rw [h.revoked] at hk; cases hk
  outdated k τ hτ := by rw [h.outdated] at hτ; cases hτ
  updated k τ hτ := by rw [h.outdated] at hτ; cases hτ

/-- **Revoked sessions stay revoked**, as far as the files that are loaded fit: a token that is accepted
was issued for that user and has not expired, and since then it was not revoked, and the user was not
deleted and got no other password or role. -/
theorem accepted_is_live (sign : Text → Text) {w₀ : World} (hstart : w₀.Start) (acts : List Act)
    (hfits : Run.Meets (authStep sign) (fun w a => a.Fits w) w₀ acts) (hrun : Run.exec (authStep sign) w₀ acts = some w)
    {token : Text} {now : Nat} {user : User} (hacc : (validateToken sign w.store token now).2 = .ok user) :
    ∃ t ∈ w.issued, t.token = token ∧ t.username = user.username ∧ now < t.expiresAt ∧
      token ∉ w.revoked ∧ ∀ τ, (token, τ) ∉ w.outdated := by
  have hiv : w.Inv := by
    refine Run.invariant (?_ : ∀ w a w', World.Inv w → _ → _ → World.Inv w') acts hrun hfits hstart.inv
    rintro w a _ hw ha ⟨⟩
    exact hw.step sign a ha
  unfold validateToken at hacc
  split at hacc
  · cases hacc
  next t ht =>
    obtain ⟨⟨his, htk⟩, hlv⟩ := hiv.table token t ht
    split_ifs at hacc with hsg hep
    split at hacc
    · cases hacc
    next u hu =>
      obtain rfl := Except.ok.inj hacc
      refine ⟨t, his, htk, (hiv.keyed _ u hu).symm, ?_, hlv.1, hlv.2⟩
      simpa [tokenExpiredAt] using hep

end Invariant

/-! ## A save, a revocation and a restart -/

def oneUser : World where
  store := ⟨AList.insert ['u'] ⟨['u'], [], .admin, some 0⟩ ∅, ∅, 0, ∅⟩
  file := none
  issued := []
  revoked := []
  outdated := []
  clock := 0

theorem start_oneUser : oneUser.Start where
  keyed k u hu := by
    rcases lookup_insert_cases hu with ⟨rfl, rfl⟩ | ⟨-, hnn⟩
    · rfl
    · cases hnn
  tokens := rfl
  file := rfl
  issued := rfl
  revoked := rfl
  outdated := rfl

theorem accepted_is_live_saved :
    let acts := [Act.generateToken ['u'] 100 (some ['k']) 5, .saveTokensSigned true, .restart 9]
    let w := acts.foldl (Act.run id) oneUser
    (validateToken id w.store ['k'] 10).2 = .ok ⟨['u'], [], .admin, some 0⟩ ∧
      ∃ t ∈ w.issued, t.token = ['k'] ∧ t.username = ['u'] ∧ (10 : Nat) < t.expiresAt ∧
        ['k'] ∉ w.revoked ∧ ∀ τ, (['k'], τ) ∉ w.outdated := by
  intro acts w
  have hac : (validateToken id w.store ['k'] 10).2 = .ok ⟨['u'], [], .admin, some 0⟩ := by decide
  refine ⟨hac, accepted_is_live id start_oneUser acts ?_ rfl hac⟩
  refine ⟨⟨by decide, fun token h => by simp [oneUser]⟩, trivial, ⟨by decide, fun file _ k t _ => ?_⟩, trivial⟩
  exact ⟨not_mem_nil, fun τ hτ => absurd hτ not_mem_nil⟩

theorem revoked_token_returns :
    let acts := [Act.generateToken ['u'] 100 (some ['k']) 5, .saveTokensSigned true, .revokeToken ['k'], .restart 9]
    let w := acts.foldl (Act.run id) oneUser
    ['k'] ∈ w.revoked ∧ (validateToken id w.store ['k'] 10).2 = .ok ⟨['u'], [], .admin, some 0⟩ := by
  decide

end NothingDNS.Auth
