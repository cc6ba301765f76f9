import NothingDNS.Lib.BigEndian
/-!
# Reading octets in order

A reader works on what is left of its input. A read past the end of the input is an outcome of its
own, `none`, beside the errors a reader reports; `Within n r` says that `r` has no such outcome when
`n` octets are left.
-/

abbrev Reader (ε : Type) := StateT (List UInt8) (ExceptT ε Option)

namespace Reader

open List BigEndian

variable {ε α β : Type} {k n x : Nat} {e : Nat → ε} {p : Nat → Prop} [DecidablePred p] {data rest : List UInt8}

def octets (k : Nat) : Reader ε (List UInt8) := fun data =>
  if data.length < k then (none : Option _) else pure (data.take k, data.drop k)

def uint (k : Nat) : Reader ε Nat := octets k >>= fun bs => pure (decode bs)

/-- A check of the number of octets left, which the error may name. -/
def refuse (p : Nat → Prop) [DecidablePred p] (e : Nat → ε) : Reader ε Unit := fun data =>
  if p data.length then throw (e data.length) else pure ((), data)

def need (k : Nat) (e : Nat → ε) : Reader ε Unit := refuse (· < k) e

/-- A reader run on octets of its own. -/
def inside (r : Reader ε α) (bs : List UInt8) : Reader ε α := fun data => (fun y => (y.1, data)) <$> r bs

/-! ## What is read of what was written -/

theorem refuse_bind (f : Unit → Reader ε α) :
    (refuse p e >>= f) data = if p data.length then some (.error (e data.length)) else f () data := by
  show (if p data.length then throw (e data.length) else pure ((), data) : ExceptT ε Option _) >>= _ = _
  split_ifs <;> rfl

theorem need_bind (h : k ≤ data.length) (f : Unit → Reader ε α) : (need k e >>= f) data = f () data := by
  rw [need, refuse_bind, if_neg (not_lt.2 h)]

theorem octets_bind (h : k ≤ data.length) (f : List UInt8 → Reader ε α) :
    (octets k >>= f) data = f (data.take k) (data.drop k) := by
  show (if data.length < k then none else pure (data.take k, data.drop k) : ExceptT ε Option _) >>= _ = _
  rw [if_neg (not_lt.2 h)]
  rfl

theorem octets_append (s rest : List UInt8) (f : List UInt8 → Reader ε α) :
    (octets s.length >>= f) (s ++ rest) = f s rest := by
  rw [octets_bind (by simp), take_left' rfl, drop_left' rfl]

theorem uint_bind (f : Nat → Reader ε α) : uint k >>= f = octets k >>= fun bs => f (decode bs) := by
  rw [uint, bind_assoc]
  rfl

theorem uint_encode (h : x < 256 ^ k) (f : Nat → Reader ε α) : (uint k >>= f) (encode k x ++ rest) = f x rest := by
  have hrd := octets_append (encode k x) rest fun bs => f (decode bs)
  rwa [length_encode, decode_encode_of_lt h, ← uint_bind] at hrd

variable {r : Reader ε α}

theorem bind_some {f : α → Reader ε β} {o : Except ε (α × List UInt8)}
    {g : α × List UInt8 → Except ε (β × List UInt8)} (h : r data = some o)
    (hf : ∀ a rest, f a rest = some (g (a, rest))) : (r >>= f) data = some (o >>= g) := by
  show (r data >>= _ : ExceptT ε Option _) = _
  rw [h]
  cases o with
  | error e => rfl
  | ok y => exact hf y.1 y.2

theorem map_ok {a : α} (h : r data = some (.ok (a, rest))) (g : α → β) :
    (g <$> r) data = some (.ok (g a, rest)) := by
  show (r data >>= _ : ExceptT ε Option _) = _
  rw [h]
  rfl

theorem inside_bind {a : α} {bs left : List UInt8} (h : r bs = some (.ok (a, left)))
    (f : α → Reader ε β) : (inside r bs >>= f) data = f a data := by
  show ((fun y => (y.1, data)) <$> r bs >>= _ : ExceptT ε Option _) = _
  rw [h]
  rfl

/-! ## Staying inside the input -/

def Within (n : Nat) (r : Reader ε α) : Prop := ∀ data : List UInt8, n ≤ data.length → r data ≠ none

theorem Within.pure (a : α) : Within n (Pure.pure a : Reader ε α) := fun _ _ => nofun

theorem Within.octets {f : List UInt8 → Reader ε α} (hk : k ≤ n) (h : ∀ bs, Within (n - k) (f bs)) :
    Within n (octets k >>= f) := by
  intro data hn
  rw [octets_bind (hk.trans hn)]
  exact h _ _ (by rw [length_drop]; omega)

theorem Within.uint {f : Nat → Reader ε α} (hk : k ≤ n) (h : ∀ x, Within (n - k) (f x)) : Within n (uint k >>= f) := by
  rw [uint_bind]
  exact Within.octets hk fun bs => h _

theorem Within.refuse {f : Unit → Reader ε α}
    (h : ∀ data : List UInt8, ¬p data.length → n ≤ data.length → f () data ≠ none) : Within n (refuse p e >>= f) := by
  intro data hn
  rw [refuse_bind]
  split_ifs with hp
  · nofun
  · exact h data hp hn

theorem Within.need {f : Unit → Reader ε α} (h : Within k (f ())) : Within n (need k e >>= f) :=
  Within.refuse fun data hk _ => h data (not_lt.1 hk)

theorem Within.bind {r : Reader ε β} {f : β → Reader ε α} (hr : Within n r) (hf : ∀ b, Within 0 (f b)) :
    Within n (r >>= f) := by
  intro data hn
  have h := hr data hn
  show (r data >>= fun x => f x.1 x.2 : ExceptT ε Option _) ≠ none
  cases hd : r data with
  | none => exact absurd hd h
  | some y => cases y with
    | error e => nofun
    | ok y => exact hf _ _ (Nat.zero_le _)

theorem Within.map (h : Within n r) (g : α → β) : Within n (g <$> r) :=
  h.bind fun a => Within.pure (g a)

theorem Within.inside (hr : Within 0 r) (bs : List UInt8) : Within n (inside r bs) := by
  intro data _
  have h := hr bs (Nat.zero_le _)
  show ((fun y => (y.1, data)) <$> r bs : ExceptT ε Option _) ≠ none
  cases hd : r bs with
  | none => exact absurd hd h
  | some y => cases y <;> nofun

end Reader
