import NothingDNS.Auth.Revocation
/-!
# An administrator remains (`internal/auth/auth.go:549-682`)

`handleUsers` of the API deletes users with `DeleteUserPreservingLastAdmin`. `DeleteUser` itself looks at no role: only
`handleBootstrap` calls it.
-/

namespace NothingDNS.Auth

open List

/-- From `auth.go:644-656`. -/
def deleteUserPreservingLastAdmin (s : Store) (username : Text) : Store × Except AuthError Unit :=
  match s.users.lookup username with
  | none => (s, .error .userNotFound)
  | some user => if user.role = .admin ∧ adminUserCount s ≤ 1 then (s, .error .lastAdmin) else deleteUser s username

/-- A deletion through the API, or another call. -/
def apiStep (sign : Text → Text) (w : World) : Text ⊕ Act → Option World
  | .inl username => some { w with store := (deleteUserPreservingLastAdmin w.store username).1 }
  | .inr (.deleteUser _ _) => none
  | .inr a => some (a.run sign w)

theorem countP_kerase {α : Type} {k : Text} {x : α} {p : (Sigma fun _ : Text => α) → Bool} :
    ∀ {l : List (Sigma fun _ : Text => α)}, l.dlookup k = some x →
      l.countP p = (l.kerase k).countP p + if p ⟨k, x⟩ then 1 else 0
  | ⟨k', y⟩ :: l, h => by
    by_cases hk : k = k'
    · subst hk
      rw [dlookup_cons_eq] at h
      cases h
      have hk : kerase k (⟨k, x⟩ :: l) = l := kerase_cons_eq rfl
      rw [hk, countP_cons]
    · rw [dlookup_cons_ne _ _ hk] at h
      rw [kerase_cons_ne hk, countP_cons, countP_cons, countP_kerase h]
      omega

variable {s : Store} {username : Text} {u : User}

/-- There is an administrator besides this user. -/
theorem admin_erase (hadm : 0 < adminUserCount s) (hu : s.users.lookup username = some u)
    (h : ¬(u.role = .admin ∧ adminUserCount s ≤ 1)) :
    0 < (s.users.entries.kerase username).countP fun e => e.2.role = .admin := by
  have hc := countP_kerase (p := fun e => e.2.role = .admin) hu
  unfold adminUserCount at hadm h
  split at hc
  next hr =>
    have hgt := not_le.1 fun hle => h ⟨of_decide_eq_true hr, hle⟩
    omega
  · omega

theorem admin_insert (hadm : 0 < adminUserCount s) {u' : User}
    (h : u'.role = .admin ∨ ∀ u, s.users.lookup username = some u → ¬(u.role = .admin ∧ adminUserCount s ≤ 1)) :
    0 < adminUserCount { s with users := s.users.insert username u' } := by
  show 0 < (⟨username, u'⟩ :: s.users.entries.kerase username).countP _
  rw [countP_cons]
  rcases h with h | h
  · simp [h]
  cases hu : s.users.lookup username with
  | some u => exact Nat.add_pos_left (admin_erase hadm hu (h u hu)) _
  | none =>
    rw [kerase_of_notMem_keys (AList.lookup_eq_none.1 hu)]
    exact Nat.add_pos_left hadm _

theorem updateChecks_role {password role : Text} {user : User} {role' : Role}
    (h : updateChecks s username password role = .ok (user, role')) :
    role' = .admin ∨ ∀ u, s.users.lookup username = some u → ¬(u.role = .admin ∧ adminUserCount s ≤ 1) := by
  unfold updateChecks at h
  split at h
  · cases h
  split at h
  · cases h
  split at h
  · cases h
  next u hu =>
    dsimp only at h
    split_ifs at h with hlast
    cases h
    by_contra hno
    rw [not_or] at hno
    refine hno.2 fun v hv hadm => hlast ?_
    cases hu.symm.trans hv
    -- without a role in the call the user keeps its own
    refine ⟨fun hr => hno.1 ?_, hadm.1, hno.1, hadm.2⟩
    rw [hr]
    exact hadm.1

theorem admin_updateUser (hadm : 0 < adminUserCount s) (password role : Text) (hash : Option (List UInt8)) (now : Nat) :
    0 < adminUserCount (updateUser s username password role hash now).1 := by
  unfold updateUser
  split
  · exact hadm
  next user role' hch =>
    split
    · exact hadm
    next hash' _ =>
      have hnew := @admin_insert s username hadm ⟨user.username, hash', role', some (wholeSecond now)⟩
        (updateChecks_role hch)
      dsimp only
      split_ifs <;> exact hnew

theorem apiStep_admin (sign : Text → Text) {w w' : World} {c : Text ⊕ Act} (hadm : 0 < adminUserCount w.store)
    (h : apiStep sign w c = some w') : 0 < adminUserCount w'.store := by
  have hsame : ∀ {s : Store}, s.users = w.store.users → 0 < adminUserCount s := fun hs => by
    rwa [adminUserCount, hs]
  rcases c with username | a
  · cases h
    show 0 < adminUserCount (deleteUserPreservingLastAdmin w.store username).1
    unfold deleteUserPreservingLastAdmin
    split
    · exact hadm
    next user hu =>
      split_ifs with hlast
      · exact hadm
      · rw [deleteUser, if_neg (by rw [hu]; exact Option.some_ne_none user)]
        exact admin_erase hadm hu hlast
  cases a <;> cases h
  case inr.createUser.refl username password role hash now =>
    show 0 < adminUserCount (createUser w.store username password role hash now).1
    unfold createUser
    repeat' split
    any_goals exact hadm
    -- the name is a new one
    next hno _ _ => exact admin_insert hadm (.inr fun u hu => (hno (hu ▸ Option.some_ne_none u)).elim)
  case inr.updateUser.refl username password role hash now => exact admin_updateUser hadm password role hash now
  case inr.generateToken.refl username expiry random now =>
    show 0 < adminUserCount (generateToken sign w.store username expiry random now).1
    unfold generateToken
    split
    · exact hadm
    · dsimp only
      split <;> exact hsame (makeRoom_users username)
  case inr.revokeToken.refl token => exact hsame (revokeToken_users token)
  case inr.validateToken.refl token now => exact hsame (validateToken_users sign token now)
  case inr.restart.refl now => exact hsame (restart_users sign w.file now)
  all_goals exact hadm

/-- **An administrator remains**, whatever is called through the API. -/
theorem admin_remains (sign : Text → Text) {w w' : World} {calls : List (Text ⊕ Act)}
    (hadm : 0 < adminUserCount w.store) (hrun : Run.exec (apiStep sign) w calls = some w') :
    0 < adminUserCount w'.store :=
  @Run.invariant _ _ (apiStep sign) (fun _ _ => True) (fun w => 0 < adminUserCount w.store)
    (fun _ _ _ hw _ hs => apiStep_admin sign hw hs) calls w w' hrun (.of_forall (fun _ _ => trivial) w calls) hadm

def lastAdminCalls : List (Text ⊕ Act) := [.inl ['u'], .inr (.updateUser ['u'] [] "viewer".toList none 3)]

theorem admin_remains_lastAdminCalls : ∃ w, Run.exec (apiStep id) oneUser lastAdminCalls = some w ∧
    0 < adminUserCount w.store := by
  obtain ⟨w, hw⟩ : ∃ w, Run.exec (apiStep id) oneUser lastAdminCalls = some w := ⟨_, rfl⟩
  exact ⟨w, hw, admin_remains id (by decide) hw⟩

end NothingDNS.Auth
