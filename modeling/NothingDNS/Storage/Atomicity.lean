import NothingDNS.Storage.KVStore
/-!
# What a failed transaction leaves behind

`load` after a rollback decodes the data file into the tree the transaction changed. Nested buckets come back as the
file has them, but a bucket the transaction created at the top level is in no member of the file and stays
(`rolled_back_bucket_stays`). A failed commit goes the same way.
-/

namespace NothingDNS.Storage

open List Store

variable {β : Type} {k n : Key} {b c root : BucketData} {s s' : Store}

theorem dlookup_assign (k : Key) (m l : List (Sigma fun _ : Key => β)) :
    (assign m l).dlookup k = (l.reverse.dlookup k).or (m.dlookup k) := by
  induction l generalizing m with
  | nil => simp [assign]
  | cons s l ih =>
    have hcn : assign m (s :: l) = assign (m.kinsert s.1 s.2) l := rfl
    rw [hcn, ih, reverse_cons, dlookup_append, Option.or_assoc]
    congr 1
    by_cases hk : k = s.1
    · subst hk
      rw [dlookup_kinsert, dlookup_cons_eq]
      rfl
    · rw [dlookup_kinsert_ne hk, dlookup_cons_ne _ _ hk, dlookup_nil]
      rfl

theorem nodupKeys_assign {m : List (Sigma fun _ : Key => β)} (h : m.NodupKeys)
    (l : List (Sigma fun _ : Key => β)) : (assign m l).NodupKeys := by
  induction l generalizing m with
  | nil => exact h
  | cons s l ih => exact ih (kinsert_nodupKeys _ _ h)

theorem coerceLoop_of_valid : ∀ (f : Nat) {k : Key}, validLoop f k = true → coerceLoop f k = k
  | 0, [], _ => rfl
  | f + 1, [], _ => rfl
  | f + 1, b :: bs, h => by
    rw [validLoop] at h
    rw [coerceLoop]
    cases hr : runeLen (b :: bs) with
    | none => simp only [hr] at h; cases h
    | some n =>
      simp only [hr] at h ⊢
      rw [coerceLoop_of_valid f h, take_append_drop]

theorem coerceUTF8_of_valid (h : validUTF8 k = true) : coerceUTF8 k = k := coerceLoop_of_valid _ h

theorem sortMembers_perm (l : List (Sigma fun _ : Key => β)) : (sortMembers l).Perm l := mergeSort_perm _ _

theorem dlookup_assign_members {l : List (Sigma fun _ : Key => β)} (hnd : l.NodupKeys)
    (hu : ∀ k ∈ l.keys, validUTF8 k = true) (k : Key) : (assign [] (members l)).dlookup k = l.dlookup k := by
  have hsm : members l = sortMembers l := by
    conv_rhs => rw [← map_id (sortMembers l)]
    refine map_congr_left fun s hs => ?_
    rw [coerceUTF8_of_valid (hu _ (mem_keys_of_mem ((sortMembers_perm l).subset hs)))]
    rfl
  have hp : (sortMembers l).reverse.Perm l := (reverse_perm _).trans (sortMembers_perm l)
  rw [hsm, dlookup_assign, ← perm_dlookup k hnd hp.symm, dlookup_nil, Option.or_none]

namespace BucketData

inductive WellFormed : BucketData → Prop
  | mk {es : Entries} {bs : Buckets} (entries : es.NodupKeys) (buckets : bs.NodupKeys)
      (nested : ∀ s ∈ bs, WellFormed s.2) : WellFormed (.mk es bs)

inductive Utf8Keys : BucketData → Prop
  | mk {es : Entries} {bs : Buckets} (entries : ∀ k ∈ es.keys, validUTF8 k = true)
      (buckets : ∀ k ∈ bs.keys, validUTF8 k = true) (nested : ∀ s ∈ bs, Utf8Keys s.2) : Utf8Keys (.mk es bs)

theorem visible_cons (b : BucketData) (k : Key) (path : List Key) :
    b.visible (k :: path) = ((b.buckets.dlookup k).map visible).bind (· path) := by
  unfold visible
  rw [find]
  cases b.buckets.dlookup k <;> rfl

theorem visible_ext (hen : ∀ k, b.entries.dlookup k = c.entries.dlookup k)
    (hb : ∀ k, (b.buckets.dlookup k).map visible = (c.buckets.dlookup k).map visible) : b.visible = c.visible := by
  funext path
  cases path with
  | nil =>
    have : (fun k => b.entries.dlookup k) = fun k => c.entries.dlookup k := funext hen
    simp only [visible, find, Option.map_some, this]
  | cons k path => rw [visible_cons, visible_cons, hb]

theorem mem_keys_iff_visible : n ∈ b.buckets.keys ↔ (b.visible [n]).isSome := by
  rw [← dlookup_isSome, visible_cons]
  cases b.buckets.dlookup n <;> simp [visible, find]

theorem heights_le_iff {m : Nat} : ∀ {bs : Buckets}, heights bs ≤ m ↔ ∀ s ∈ bs, s.2.height ≤ m
  | [] => by simp [heights]
  | ⟨k, c⟩ :: bs => by
    rw [heights, Nat.max_le, heights_le_iff]
    simp

end BucketData

open BucketData

theorem marshalAll_eq : ∀ bs : Buckets, marshalAll bs = bs.map (Sigma.map id fun _ => marshal)
  | [] => rfl
  | ⟨k, c⟩ :: bs => by rw [marshalAll, marshalAll_eq bs]; rfl

theorem unmarshalAll_eq : ∀ bs : Buckets, unmarshalAll bs = bs.map (Sigma.map id fun _ => unmarshal)
  | [] => rfl
  | ⟨k, c⟩ :: bs => by rw [unmarshalAll, unmarshalAll_eq bs]; rfl

theorem unmarshalAll_members (bs : Buckets) : unmarshalAll (members bs) = members (unmarshalAll bs) := by
  have hsr : (sortMembers bs).map (Sigma.map id fun _ => unmarshal) =
      sortMembers (bs.map (Sigma.map id fun _ => unmarshal)) := by
    exact map_mergeSort fun _ _ _ _ => rfl
  rw [unmarshalAll_eq, unmarshalAll_eq, members, members, ← hsr, map_map, map_map]
  rfl

theorem visible_unmarshal_marshal (hw : b.WellFormed) (hut : b.Utf8Keys) :
    (unmarshal (marshal b)).visible = b.visible := by
  induction b using BucketData.induct with
  | h es bs ih =>
    obtain ⟨hes, hbs, hns⟩ := hw
    obtain ⟨hus, hub, hu⟩ := hut
    rw [marshal, unmarshal, unmarshalAll_members]
    refine visible_ext (dlookup_assign_members hes hus) fun k => ?_
    have hky : (unmarshalAll (marshalAll bs)).keys = bs.keys := by
      rw [marshalAll_eq, unmarshalAll_eq, keys, map_map, map_map]
      rfl
    have hlk : (unmarshalAll (marshalAll bs)).dlookup k = (bs.dlookup k).map fun c => unmarshal (marshal c) := by
      rw [unmarshalAll_eq, dlookup_map₂, marshalAll_eq, dlookup_map₂, Option.map_map]
      rfl
    simp only [buckets_mk]
    rw [dlookup_assign_members (by rw [List.NodupKeys, hky]; exact hbs) (by rwa [hky]), hlk, Option.map_map]
    cases hk : bs.dlookup k with
    | none => rfl
    | some c =>
      have hmem := of_mem_dlookup hk
      exact congrArg some (ih _ hmem (hns _ hmem) (hu _ hmem))

theorem wellFormed_unmarshal (b : BucketData) : (unmarshal b).WellFormed := by
  induction b using BucketData.induct with
  | h es bs ih =>
    rw [unmarshal]
    refine .mk (nodupKeys_assign nodupKeys_nil _) (nodupKeys_assign nodupKeys_nil _) fun s hs => ?_
    obtain ⟨k, c⟩ := s
    have hk := mem_dlookup (nodupKeys_assign nodupKeys_nil _) hs
    rw [dlookup_assign, dlookup_nil, Option.or_none] at hk
    have hmem := mem_reverse.1 (of_mem_dlookup hk)
    rw [unmarshalAll_eq] at hmem
    obtain ⟨d, hd, hdc⟩ := mem_map.1 hmem
    cases hdc
    exact ih d hd

theorem height_marshal {m : Nat} (h : b.height ≤ m) : (marshal b).height ≤ m := by
  induction b using BucketData.induct generalizing m with
  | h es bs ih =>
    rw [height] at h
    obtain ⟨m, rfl⟩ : ∃ m', m = m' + 1 := ⟨m - 1, by omega⟩
    have hall := heights_le_iff.1 (Nat.le_of_succ_le_succ h)
    rw [marshal, height]
    refine Nat.succ_le_succ (heights_le_iff.2 fun s hs => ?_)
    obtain ⟨d, hd, rfl⟩ := mem_map.1 hs
    have hd' := (sortMembers_perm _).subset hd
    rw [marshalAll_eq] at hd'
    obtain ⟨c, hc, rfl⟩ := mem_map.1 hd'
    exact ih c hc (hall c hc)

theorem visible_readInto {t f : BucketData} (hen : t.entries = [])
    (hnm : ∀ n ∈ t.buckets.keys, n ∈ (unmarshal f).buckets.keys) : (readInto t f).visible = (unmarshal f).visible := by
  obtain ⟨es, bs⟩ := f
  rw [unmarshal] at hnm ⊢
  rw [readInto, hen]
  refine visible_ext (fun k => rfl) fun k => ?_
  simp only [buckets_mk] at hnm ⊢
  rw [dlookup_assign k t.buckets]
  cases hk : (unmarshalAll bs).reverse.dlookup k with
  | some c => rw [dlookup_assign, hk]; rfl
  | none =>
    have hnn : (assign [] (unmarshalAll bs)).dlookup k = none := by rw [dlookup_assign, hk]; rfl
    rw [hnn, Option.none_or, dlookup_eq_none.2 fun hmem => ?_]
    exact dlookup_eq_none.1 hnn (hnm k hmem)

/-! ## What a transaction does to the tree -/

theorem mem_keys_kinsert_of_mem {l : List (Sigma fun _ : Key => β)} (hk : k ∈ l.keys) (x : β)
    (h : n ∈ (l.kinsert k x).keys) : n ∈ l.keys := by
  rcases mem_keys_kinsert.1 h with rfl | h
  · exact hk
  · exact h

theorem BucketData.WellFormed.insertBucket {es : Entries} {bs : Buckets} (h : (BucketData.mk es bs).WellFormed) (k : Key)
    (hc : c.WellFormed) : (BucketData.mk es (bs.kinsert k c)).WellFormed := by
  obtain ⟨hes, hbs, hns⟩ := h
  refine .mk hes (kinsert_nodupKeys _ _ hbs) fun s hs => ?_
  rw [kinsert_def, mem_cons] at hs
  rcases hs with rfl | hs
  · exact hc
  · exact hns s ((kerase_sublist k bs).subset hs)

theorem BucketData.WellFormed.dlookup (h : b.WellFormed) (hk : b.buckets.dlookup k = some c) : c.WellFormed := by
  obtain ⟨-, -, hns⟩ := h
  exact hns _ (of_mem_dlookup hk)

theorem wellFormed_newBucketData : newBucketData.WellFormed :=
  .mk nodupKeys_nil nodupKeys_nil nofun

theorem atPath_wellFormed {f : BucketData → BucketData × Option KVError}
    (hf : ∀ b : BucketData, b.WellFormed → (f b).1.WellFormed) :
    ∀ (path : List Key) {b : BucketData}, b.WellFormed → (atPath f path b).1.WellFormed
  | [], _, h => hf _ h
  | k :: ks, .mk es bs, h => by
    rw [atPath]
    cases hk : (BucketData.mk es bs).buckets.dlookup k with
    | none => exact h
    | some c => exact h.insertBucket k (atPath_wellFormed hf ks (h.dlookup hk))

theorem atPath_cons {f : BucketData → BucketData × Option KVError} (k : Key) (ks : List Key) (b : BucketData) :
    (atPath f (k :: ks) b).1.entries = b.entries ∧ ∀ n ∈ (atPath f (k :: ks) b).1.buckets.keys, n ∈ b.buckets.keys := by
  rw [atPath]
  cases hk : b.buckets.dlookup k with
  | none => exact ⟨rfl, fun _ h => h⟩
  | some c =>
    refine ⟨rfl, fun n hn => mem_keys_kinsert_of_mem ?_ _ hn⟩
    rw [← dlookup_isSome, hk]
    rfl

theorem createBucket_spec (h : b.WellFormed) (name : Key) :
    (createBucket name b).1.WellFormed ∧ (createBucket name b).1.entries = b.entries ∧
      ∀ n ∈ (createBucket name b).1.buckets.keys, n ∈ b.buckets.keys ∨ name = n := by
  obtain ⟨es, bs⟩ := b
  unfold createBucket
  split
  · exact ⟨h, rfl, fun _ hn => .inl hn⟩
  · exact ⟨h.insertBucket _ wellFormed_newBucketData, rfl, fun n hn =>
      (mem_keys_kinsert.1 hn).symm.imp_right Eq.symm⟩

theorem createBucketIfNotExists_spec (h : b.WellFormed) (name : Key) :
    (createBucketIfNotExists name b).1.WellFormed ∧ (createBucketIfNotExists name b).1.entries = b.entries ∧
      ∀ n ∈ (createBucketIfNotExists name b).1.buckets.keys, n ∈ b.buckets.keys ∨ name = n := by
  unfold createBucketIfNotExists
  split
  · exact ⟨h, rfl, fun _ hn => .inl hn⟩
  · exact createBucket_spec h name

theorem deleteBucket_spec (h : b.WellFormed) (name : Key) :
    (deleteBucket name b).1.WellFormed ∧ (deleteBucket name b).1.entries = b.entries ∧
      ∀ n ∈ (deleteBucket name b).1.buckets.keys, n ∈ b.buckets.keys ∧ n ≠ name := by
  obtain ⟨hes, hbs, hns⟩ := h
  unfold deleteBucket
  split
  · refine ⟨.mk hes (hbs.kerase _) fun s hs => hns s ((kerase_sublist _ _).subset hs), rfl, ?_⟩
    intro n hn
    refine ⟨kerase_keys_subset _ _ hn, ?_⟩
    rintro rfl
    exact notMem_keys_kerase _ hbs hn
  next hnn =>
    refine ⟨.mk hes hbs hns, rfl, fun n hn => ⟨hn, ?_⟩⟩
    rintro rfl
    exact hnn (dlookup_isSome.2 hn)

theorem put_wellFormed (key : Key) (value : List UInt8) (h : b.WellFormed) : (put key value b).1.WellFormed := by
  obtain ⟨hes, hbs, hns⟩ := h
  unfold put
  split_ifs
  · exact .mk hes hbs hns
  · exact .mk hes hbs hns
  · exact .mk hes hbs hns
  · exact .mk (kinsert_nodupKeys _ _ hes) hbs hns

theorem delete_wellFormed (key : Key) (h : b.WellFormed) : (delete key b).1.WellFormed := by
  obtain ⟨hes, hbs, hns⟩ := h
  unfold delete
  split
  · exact .mk (hes.kerase _) hbs hns
  · exact .mk hes hbs hns

/-- The top-level bucket a call may create. -/
def Op.creates : Op → Option Key
  | .createBucket [] name | .createBucketIfNotExists [] name => some name
  | _ => none

theorem Op.apply_wellFormed (op : Op) (h : b.WellFormed) : (op.apply b).1.WellFormed := by
  cases op with
  | createBucket path name => exact atPath_wellFormed (fun _ h => (createBucket_spec h name).1) path h
  | createBucketIfNotExists path name =>
    exact atPath_wellFormed (fun _ h => (createBucketIfNotExists_spec h name).1) path h
  | deleteBucket path name => exact atPath_wellFormed (fun _ h => (deleteBucket_spec h name).1) path h
  | put bucket path key value => exact atPath_wellFormed (fun _ => put_wellFormed key value) _ h
  | delete bucket path key => exact atPath_wellFormed (fun _ => delete_wellFormed key) _ h

theorem Op.apply_root (op : Op) (h : b.WellFormed) :
    (op.apply b).1.entries = b.entries ∧ ∀ n ∈ (op.apply b).1.buckets.keys,
      (n ∈ b.buckets.keys ∨ op.creates = some n) ∧ op ≠ .deleteBucket [] n := by
  match op with
  -- at the top level
  | .createBucket [] name =>
    obtain ⟨-, he, hn⟩ := createBucket_spec h name
    exact ⟨he, fun n hm => ⟨(hn n hm).imp_right (congrArg some), by simp⟩⟩
  | .createBucketIfNotExists [] name =>
    obtain ⟨-, he, hn⟩ := createBucketIfNotExists_spec h name
    exact ⟨he, fun n hm => ⟨(hn n hm).imp_right (congrArg some), by simp⟩⟩
  | .deleteBucket [] name =>
    obtain ⟨-, he, hn⟩ := deleteBucket_spec h name
    exact ⟨he, fun n hm => ⟨.inl (hn n hm).1, by simpa using (hn n hm).2.symm⟩⟩
  -- below it
  | .createBucket (k :: ks) _ | .createBucketIfNotExists (k :: ks) _ | .deleteBucket (k :: ks) _ | .put k ks _ _
  | .delete k ks _ => exact ⟨(atPath_cons k ks b).1, fun n hm => ⟨.inl ((atPath_cons k ks b).2 n hm), by simp⟩⟩

/-- Every top-level bucket the calls create was there before, or is deleted again. -/
def Spares (root : BucketData) (ops : List Op) : Prop :=
  ∀ pre op post name, ops = pre ++ op :: post → op.creates = some name →
    name ∈ root.buckets.keys ∨ Op.deleteBucket [] name ∈ post

theorem runOps_wellFormed (ops : List Op) (h : b.WellFormed) : (runOps ops b).WellFormed := by
  induction ops generalizing b with
  | nil => exact h
  | cons op ops ih => exact ih (op.apply_wellFormed h)

theorem runOps_entries (ops : List Op) (h : b.WellFormed) : (runOps ops b).entries = b.entries := by
  induction ops generalizing b with
  | nil => rfl
  | cons op ops ih => exact (ih (op.apply_wellFormed h)).trans (op.apply_root h).1

theorem runOps_names {ops : List Op} (h : b.WellFormed) (hsp : Spares root ops)
    (hnm : ∀ n ∈ b.buckets.keys, n ∈ root.buckets.keys ∨ Op.deleteBucket [] n ∈ ops) :
    ∀ n ∈ (runOps ops b).buckets.keys, n ∈ root.buckets.keys := by
  induction ops generalizing b with
  | nil => exact fun n hn => (hnm n hn).resolve_right not_mem_nil
  | cons op ops ih =>
    refine ih (op.apply_wellFormed h) (fun pre o post name he => hsp (op :: pre) o post name (by rw [he]; rfl))
      fun n hn => ?_
    obtain ⟨hold | hnw, hne⟩ := (op.apply_root h).2 n hn
    · refine (hnm n hold).imp_right fun hmem => ?_
      exact (mem_cons.1 hmem).resolve_left fun he => hne he.symm
    · exact hsp [] op ops n rfl hnw

/-! ## Between two transactions -/

/-- The root and the file after commits and restarts: the file was written from this root, or the root
was read from this file. -/
structure Store.Inv (s : Store) : Prop where
  entries : s.root.entries = []
  wellFormed : s.root.WellFormed
  file : s.file = none ∧ s.root = newBucketData ∨
    ∃ f, s.file = some f ∧ f.entries = [] ∧
      (f = marshal s.root ∨ s.root = unmarshal f ∧ 2 * f.height ≤ maxNestingDepth)

theorem readInto_newBucketData (f : BucketData) : readInto newBucketData f = unmarshal f := by
  obtain ⟨es, bs⟩ := f
  rfl

theorem unmarshal_entries {f : BucketData} (h : f.entries = []) : (unmarshal f).entries = [] := by
  obtain ⟨es, bs⟩ := f
  obtain rfl : es = [] := h
  rfl

theorem marshal_entries (h : b.entries = []) : (marshal b).entries = [] := by
  obtain ⟨es, bs⟩ := b
  obtain rfl : es = [] := h
  rw [marshal]
  simp [members, sortMembers]

theorem Store.inv_init : init.Inv := ⟨rfl, wellFormed_newBucketData, .inl ⟨rfl, rfl⟩⟩

theorem Store.inv_step {st : Store.Step} (h : s.Inv) (hs : s.step st = some s') : s'.Inv := by
  cases st with
  | update ops =>
    cases hs
    have he : (runOps ops s.root).entries = [] := (runOps_entries ops h.wellFormed).trans h.entries
    exact ⟨he, runOps_wellFormed ops h.wellFormed, .inr ⟨_, rfl, marshal_entries he, .inl rfl⟩⟩
  | reopen =>
    obtain ⟨root, file⟩ := s
    rcases h.file with ⟨hf, hr⟩ | ⟨f, hf, hfe, -⟩
    · cases hf
      cases hs
      exact ⟨rfl, wellFormed_newBucketData, .inl ⟨rfl, rfl⟩⟩
    cases hf
    simp only [step, load, Bool.true_eq_false, if_false] at hs
    by_cases hd : maxNestingDepth < 2 * f.height
    · rw [if_pos hd] at hs
      cases hs
    · rw [if_neg hd, readInto_newBucketData] at hs
      cases hs
      exact ⟨unmarshal_entries hfe, wellFormed_unmarshal f, .inr ⟨f, rfl, hfe, .inr ⟨rfl, not_lt.1 hd⟩⟩⟩

theorem Store.inv_run {steps : List Store.Step} (h : Run.exec step init steps = some s) : s.Inv :=
  Run.invariant (fun _ _ _ hi _ hs => inv_step hi hs) steps h
    (Run.Meets.of_forall (fun _ _ => trivial) _ _) inv_init

/-- The two ways a transaction ends without having changed the data file. -/
inductive Failure where
  /-- `Rollback`, or `Update` with a function that returns an error. -/
  | rolledBack
  /-- `Commit` whose `save` fails before the rename. -/
  | commitFailed
deriving DecidableEq

def Store.afterFailure (s : Store) (ops : List Op) : Failure → Store
  | .rolledBack => (({ s with root := runOps ops s.root } : Store).rollback true).1
  | .commitFailed => (({ s with root := runOps ops s.root } : Store).commit .failed true).1

theorem Store.afterFailure_root {f : BucketData} (hf : s.file = some f) (hd : 2 * f.height ≤ maxNestingDepth)
    (ops : List Op) (e : Failure) : (s.afterFailure ops e).root = readInto (runOps ops s.root) f := by
  have hld : load s.file true (runOps ops s.root) = (readInto (runOps ops s.root) f, none) := by
    rw [hf, load, if_neg (by decide), if_neg (not_lt.2 hd)]
  cases e with
  | rolledBack => simp only [afterFailure, rollback, hld]
  | commitFailed => simp only [afterFailure, commit, hld]

/-- **A failed transaction is invisible** if the keys before it are UTF-8, the tree is not deeper than
the decoder reads, and every top-level bucket it creates was there before or is deleted again by it. -/
theorem failed_transaction_invisible {steps : List Store.Step}
    (hs : Run.exec step init steps = some s) (hutf : s.root.Utf8Keys)
    (hdeep : 2 * s.root.height ≤ maxNestingDepth) (ops : List Op) (e : Failure)
    (hok : s.file = none ∧ e = .rolledBack ∨ Spares s.root ops) :
    (s.afterFailure ops e).root.visible = s.root.visible := by
  have h := inv_run hs
  have hen : (runOps ops s.root).entries = [] := (runOps_entries ops h.wellFormed).trans h.entries
  have hnm : Spares s.root ops → ∀ n ∈ (runOps ops s.root).buckets.keys, n ∈ s.root.buckets.keys :=
    fun hsp => runOps_names h.wellFormed hsp fun n hn => .inl hn
  rcases h.file with ⟨hf, hrt⟩ | ⟨f, hf, -, hfl⟩
  · -- no data file: a rollback starts afresh, a failed commit keeps the transaction's tree
    cases e with
    | rolledBack => simp only [afterFailure, rollback, load, hf, hrt]
    | commitFailed =>
      have hsp : Spares s.root ops := hok.resolve_left fun h => by cases h.2
      have hld : (s.afterFailure ops .commitFailed).root = runOps ops s.root := by
        simp [afterFailure, commit, load, hf]
      rw [hld]
      refine visible_ext (fun k => by rw [hen, h.entries]) fun k => ?_
      have hnn : s.root.buckets.dlookup k = none := by rw [hrt]; rfl
      rw [hnn, dlookup_eq_none.2 fun hk => dlookup_eq_none.1 hnn (hnm hsp k hk)]
  have hsp : Spares s.root ops := hok.resolve_left fun h => by rw [hf] at h; cases h.1
  have hsm : (unmarshal f).visible = s.root.visible ∧ 2 * f.height ≤ maxNestingDepth := by
    rcases hfl with rfl | ⟨hrt, hd⟩
    · have := height_marshal (le_refl s.root.height)
      exact ⟨visible_unmarshal_marshal h.wellFormed hutf, by omega⟩
    · exact ⟨by rw [hrt], hd⟩
  rw [afterFailure_root hf hsm.2, visible_readInto hen fun n hn => ?_, hsm.1]
  rw [mem_keys_iff_visible, hsm.1, ← mem_keys_iff_visible]
  exact hnm hsp n hn

def zonesRoot : BucketData := .mk [] [⟨[122], .mk [⟨[107], [1]⟩] []⟩]

def zonesStore : Store := { root := zonesRoot, file := some (marshal zonesRoot) }

def zonesSteps : List Store.Step := [.update [.createBucket [] [122], .put [122] [] [107] [1]]]

theorem failed_transaction_invisible_put : Run.exec step init zonesSteps = some zonesStore ∧
      (zonesStore.afterFailure [.put [122] [] [107] [2], .createBucket [[122]] [110]] .rolledBack).root.visible =
        zonesRoot.visible := by
  refine ⟨rfl, @failed_transaction_invisible zonesStore zonesSteps rfl ?_ (by decide) _ _ (.inr ?_)⟩
  · refine .mk (by decide) (by decide) fun s hs => ?_
    obtain rfl := mem_singleton.1 hs
    exact .mk (by decide) (by decide) nofun
  · intro pre op post name h hc
    have hnn : ∀ o ∈ [Op.put [122] [] [107] [2], .createBucket [[122]] [110]], o.creates = none := by decide
    rw [hnn op (by rw [h]; simp)] at hc
    cases hc

theorem rolled_back_bucket_stays :
    Run.exec step init zonesSteps = some zonesStore ∧ zonesStore.root.visible [[110]] = none ∧
      (zonesStore.afterFailure [.createBucket [] [110]] .rolledBack).root.visible [[110]] ≠ none := by
  have hfl : marshal zonesRoot = zonesRoot := by
    have hnm : coerceUTF8 [122] = [122] := by decide
    have hkey : coerceUTF8 [107] = [107] := by decide
    simp [zonesRoot, marshal, marshalAll, members, sortMembers, hnm, hkey]
  have hrt := zonesStore.afterFailure_root (congrArg some hfl) (by decide) [.createBucket [] [110]] .rolledBack
  refine ⟨rfl, rfl, ?_⟩
  rw [hrt]
  have hst : ((readInto (runOps [.createBucket [] [110]] zonesRoot) zonesRoot).visible [[110]]).isSome := by
    decide
  intro hnn
  exact absurd (hnn ▸ hst) (by decide)

/-- **What is committed survives a restart**, in every run of transactions and restarts. -/
theorem reopen_keeps {steps : List Store.Step} (hs : Run.exec step init steps = some s) (hutf : s.root.Utf8Keys)
    (hdeep : 2 * s.root.height ≤ maxNestingDepth) : ∃ s', s.step .reopen = some s' ∧ s'.root.visible = s.root.visible := by
  have h := inv_run hs
  rcases h.file with ⟨hf, hrt⟩ | ⟨f, hf, -, hfl⟩
  · exact ⟨{ s with root := newBucketData }, by simp [step, load, hf], by rw [hrt]⟩
  have hsm : (unmarshal f).visible = s.root.visible ∧ 2 * f.height ≤ maxNestingDepth := by
    rcases hfl with rfl | ⟨hrt, hd⟩
    · have := height_marshal (le_refl s.root.height)
      exact ⟨visible_unmarshal_marshal h.wellFormed hutf, by omega⟩
    · exact ⟨by rw [hrt], hd⟩
  refine ⟨{ s with root := unmarshal f }, ?_, hsm.1⟩
  simp [step, load, hf, not_lt.2 hsm.2, readInto_newBucketData]

theorem reopen_keeps_zones : ∃ s', zonesStore.step .reopen = some s' ∧ s'.root.visible = zonesRoot.visible := by
  refine @reopen_keeps zonesStore zonesSteps rfl (.mk (by decide) (by decide) fun s hs => ?_) (by decide)
  obtain rfl := mem_singleton.1 hs
  exact .mk (by decide) (by decide) fun t ht => by cases ht

end NothingDNS.Storage
