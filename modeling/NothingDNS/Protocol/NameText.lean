import NothingDNS.Protocol.Message
/-!
# Names as text (`internal/protocol/labels.go`)

The octets of a Go string are the characters below 256. Printing writes the labels as they are and a dot behind each,
with no escapes, so a dot inside a label is lost (`printName_dotted`).
-/

namespace NothingDNS.Protocol

open List

/-- The labels a walk over the wire form meets: an empty one ends it. -/
def labelsFromWire (n : WireName) : WireName := n.takeWhile fun l => !l.isEmpty

def octetDot : UInt8 := 46

theorem toNat_ofNat_octet (b : UInt8) : (Char.ofNat b.toNat).toNat = b.toNat := by
  have hvl : b.toNat.isValidChar := Or.inl (by have := b.toNat_lt; omega)
  rw [Char.ofNat, dif_pos hvl]
  rfl

theorem labelBytes_printLabel (l : List UInt8) : labelBytes (printLabel l) = l := by
  rw [labelBytes, printLabel, map_map]
  conv_rhs => rw [← map_id l]
  refine map_congr_left fun b _ => ?_
  simp only [Function.comp_apply, toNat_ofNat_octet, id]
  exact UInt8.ofNat_toNat

theorem printLabel_injective : Function.Injective printLabel := Function.LeftInverse.injective labelBytes_printLabel

variable {t : Text}

theorem printLabel_labelBytes (hac : ∀ c ∈ t, c.toNat < 128) : printLabel (labelBytes t) = t := by
  rw [labelBytes, printLabel, map_map]
  conv_rhs => rw [← map_id t]
  refine map_congr_left fun c hc => ?_
  have hoc : (UInt8.ofNat c.toNat).toNat = c.toNat := by
    have := hac c hc
    simp
    omega
  simp [hoc]

theorem dot_mem_printLabel {l : List UInt8} : '.' ∈ printLabel l ↔ octetDot ∈ l := by
  constructor
  · intro h
    obtain ⟨b, hb, hd⟩ := mem_map.1 h
    have hnt : b.toNat = 46 := by rw [← toNat_ofNat_octet b, hd]; rfl
    rwa [UInt8.toNat_inj.1 (show b.toNat = octetDot.toNat from hnt)] at hb
  · exact fun h => mem_map.2 ⟨octetDot, h, rfl⟩

theorem printLabel_lower (l : List UInt8) : printLabel (l.map toLower) = (printLabel l).lower := by
  rw [printLabel, printLabel, Text.lower, map_map, map_map]
  refine map_congr_left fun b _ => ?_
  have hb := b.toNat_lt
  apply Char.toNat_inj.1
  simp only [Function.comp_apply]
  rw [Text.toNat_toLower, toNat_ofNat_octet, toNat_ofNat_octet, toLower]
  split
  · simp only [UInt8.toNat_ofNat']
    omega
  · rfl

theorem isValidLabelChar_range {c : Char} (h : isValidLabelChar c = true) : 42 ≤ c.toNat ∧ c.toNat ≤ 122 := by
  have hle : ∀ {a b : Char}, a ≤ b → a.toNat ≤ b.toNat := fun h => UInt32.le_iff_toNat_le.1 h
  simp only [isValidLabelChar, Bool.decide_or, Bool.or_eq_true, decide_eq_true_eq] at h
  obtain ⟨h1, h2⟩ | ⟨h1, h2⟩ | ⟨h1, h2⟩ | rfl | rfl | rfl := h
  iterate 3 exact ⟨le_trans (by decide) (hle h1), (hle h2).trans (by decide)⟩
  all_goals decide

theorem isValidLabelChar_bound {c : Char} (h : isValidLabelChar c = true) : c.toNat < 128 ∧ c ≠ '.' := by
  refine ⟨by have := isValidLabelChar_range h; omega, ?_⟩
  rintro rfl
  cases h

theorem validateLabel_chars (h : validateLabel t = true) : ∀ c ∈ t, isValidLabelChar c = true := by
  simp only [validateLabel, Bool.and_eq_true, all_eq_true] at h
  exact h.2

/-! ## The split is the inverse of the join -/

def Undotted (n : WireName) : Prop := ∀ l ∈ n, octetDot ∉ l

instance (n : WireName) : Decidable (Undotted n) := List.decidableBAll _ _

/-- The texts between the dots of a name, as `ParseName` cuts it. -/
def nameTexts (t : Text) : List Text := if t.trimDot = [] then [] else t.trimDot.splitOn '.'

theorem flatMap_dot : ∀ {ts : List Text}, ts ≠ [] →
    (ts.flatMap fun t => t ++ ['.']) = List.intercalate ['.'] ts ++ ['.']
  | [t], _ => by simp
  | t :: t' :: ts, _ => by
    rw [flatMap_cons, flatMap_dot (cons_ne_nil t' ts), intercalate_cons_cons]
    simp

variable {n : WireName}

theorem trimDot_printName (h : n ≠ []) : (printName n).trimDot = List.intercalate ['.'] (n.map printLabel) := by
  have hp : printName n = intercalate ['.'] (n.map printLabel) ++ ['.'] := by
    rw [printName, if_neg h, ← flatMap_dot (by simpa using h), flatMap_map]
  rw [hp, Text.trimDot, if_pos (by simp)]
  simp

theorem nameTexts_printName (hne : ∀ l ∈ n, l ≠ []) (hd : Undotted n) : nameTexts (printName n) = n.map printLabel := by
  by_cases hn : n = []
  · subst hn
    rfl
  have hmem : ∀ t ∈ n.map printLabel, '.' ∉ t := by
    intro t ht
    obtain ⟨l, hl, rfl⟩ := mem_map.1 ht
    exact fun h => hd l hl (dot_mem_printLabel.1 h)
  have hsp := splitOn_intercalate '.' hmem (by simpa using hn)
  rw [nameTexts, trimDot_printName hn, hsp, if_neg]
  -- an empty join would split into one empty text
  intro hnil
  rw [hnil] at hsp
  obtain ⟨l, ls, rfl⟩ := exists_cons_of_ne_nil hn
  have hl : printLabel l = [] := by
    have : [[]] = (l :: ls).map printLabel := hsp
    simp only [map_cons, cons.injEq] at this
    exact this.1.symm
  exact hne l mem_cons_self (map_eq_nil_iff.1 hl)

theorem printName_inj {m : WireName} (hm : ∀ l ∈ m, l ≠ []) (hn : ∀ l ∈ n, l ≠ []) (hmd : Undotted m)
    (hnd : Undotted n) (h : printName m = printName n) : m = n := by
  have hmp : m.map printLabel = n.map printLabel := by
    rw [← nameTexts_printName hm hmd, ← nameTexts_printName hn hnd, h]
  exact map_injective_iff.2 printLabel_injective hmp

theorem lower_printName (n : WireName) : (printName n).lower = printName (lowerName n) := by
  by_cases hn : n = []
  · subst hn
    rfl
  rw [printName, printName, if_neg hn, if_neg (by simpa [lowerName] using hn), Text.lower, map_flatMap,
    lowerName, flatMap_map]
  refine flatMap_congr fun l _ => ?_
  rw [printLabel_lower, map_append]
  rfl

theorem lowerName_ne_nil (h : ∀ l ∈ n, l ≠ []) : ∀ l ∈ lowerName n, l ≠ [] := by
  intro l hl
  obtain ⟨l', hl', rfl⟩ := mem_map.1 hl
  simpa using h l' hl'

theorem toLower_eq_dot {b : UInt8} (h : toLower b = octetDot) : b = octetDot := by
  have hnt := congrArg UInt8.toNat h
  have hd : octetDot.toNat = 46 := rfl
  rw [toLower] at h hnt
  split at hnt
  · simp only [UInt8.toNat_ofNat'] at hnt
    omega
  · exact UInt8.toNat_inj.1 hnt

theorem Undotted.lowerName (h : Undotted n) : Undotted (lowerName n) := by
  intro l hl hd
  obtain ⟨l', hl', rfl⟩ := mem_map.1 hl
  obtain ⟨b, hb, heq⟩ := mem_map.1 hd
  exact h l' hl' (toLower_eq_dot heq ▸ hb)

/-! ## Names from the wire -/

theorem Valid.concat {wire : WireName} {rest : List UInt8} {k : Nat} (hw : Valid wire) (hrm : ¬rest.length < k)
    (hzr : k ≠ 0) (hlb : ¬maxLabelLength < k) (hnm : ¬maxNameLength < (nameOctets wire).length + 1 + k + 1) :
    Valid (wire ++ [rest.take k]) := by
  have hlen : (rest.take k).length = k := length_take_of_le (not_lt.1 hrm)
  constructor
  · exact forall_mem_append.2 ⟨hw.1, forall_mem_singleton.2 ⟨by omega, by omega⟩⟩
  · simp only [nameOctets_append, nameOctets_cons, nameOctets_nil, append_nil, length_append, length_labelOctets, hlen]
    omega

theorem unpackLoop_valid {buf : List UInt8} : ∀ {fuel offset ptrDepth : Nat} {ptrEnd : Option Nat} {wire n : WireName}
    {last : Nat}, Valid wire → unpackLoop buf fuel offset ptrDepth ptrEnd wire = .ok (n, last) → Valid n
  | 0, _, _, _, _, _, _, _, h => by cases h
  | fuel + 1, offset, ptrDepth, ptrEnd, wire, n, last, hw, h => by
    rw [unpackLoop] at h
    split at h
    · cases h
    next b rest _ =>
      split at h
      · split at h
        · cases h
        dsimp only at h
        split at h
        · cases h
        split at h
        · cases h
        · exact unpackLoop_valid hw h
      split at h
      · cases h
        exact hw
      next hzr =>
        split at h
        · cases h
        next hlb =>
          split at h
          · cases h
          next hrm =>
            split at h
            · cases h
            next hnm =>
              exact unpackLoop_valid (hw.concat hrm hzr hlb hnm) h

theorem unpackName_valid {buf : List UInt8} {offset len : Nat} (h : unpackName buf offset = .ok (n, len)) :
    Valid n := by
  unfold unpackName at h
  split at h
  · cases h
  split at h
  next hlp =>
    cases h
    exact unpackLoop_valid (by decide) hlp
  · cases h

theorem Valid.ne_nil (h : Valid n) : ∀ l ∈ n, l ≠ [] := fun l hl hnil => by
  have := (h.1 l hl).1
  simp [hnil] at this

theorem Valid.length_le (h : Valid n) : n.length ≤ maxLabels := by
  have htw : ∀ {n : WireName}, (∀ l ∈ n, ValidLabel l) → 2 * n.length ≤ (nameOctets n).length := by
    intro n hn
    induction n with
    | nil => simp
    | cons l ls ih =>
      have hl := (hn l mem_cons_self).1
      have := ih fun x hx => hn x (mem_cons_of_mem _ hx)
      simp only [nameOctets_cons, length_append, length_labelOctets, length_cons]
      omega
  have h1 := htw h.1
  have h2 : (nameOctets n).length + 1 ≤ 255 := h.2
  show n.length ≤ 127
  omega

theorem parseName_eq (t : Text) : parseName t =
    if (nameTexts t).length ≤ maxLabels ∧ (nameOctets ((nameTexts t).map labelBytes)).length + 1 ≤ maxNameLength ∧
        (nameTexts t).all validateLabel = true then some ((nameTexts t).map labelBytes) else none := by
  simp only [parseName, nameTexts]
  split
  · rfl
  · rfl

theorem parseName_labels (h : parseName t = some n) : ∀ l ∈ n, validateLabel (printLabel l) = true := by
  rw [parseName_eq] at h
  split at h
  next hok =>
    cases h
    intro l hl
    obtain ⟨s, hs, rfl⟩ := mem_map.1 hl
    have hv : validateLabel s = true := all_eq_true.1 hok.2.2 s hs
    rwa [printLabel_labelBytes fun c hc => (isValidLabelChar_bound (validateLabel_chars hv c hc)).1]
  · cases h

theorem parseName_printName (hn : Valid n) (hv : ∀ l ∈ n, validateLabel (printLabel l) = true) :
    parseName (printName n) = some n := by
  have hd : Undotted n := fun l hl hmem =>
    (isValidLabelChar_bound (validateLabel_chars (hv l hl) _ (dot_mem_printLabel.2 hmem))).2 rfl
  have hb : (n.map printLabel).map labelBytes = n := by
    rw [map_map]
    exact (map_congr_left fun l _ => labelBytes_printLabel l).trans (map_id n)
  rw [parseName_eq, nameTexts_printName hn.ne_nil hd, hb, if_pos]
  refine ⟨by simpa using hn.length_le, hn.2, all_eq_true.2 fun t ht => ?_⟩
  obtain ⟨l, hl, rfl⟩ := mem_map.1 ht
  exact hv l hl

/-! ## What the text keeps of a name

The text is that of the name cut at every dot, inside a label or behind it. -/

def cutAtDots (n : WireName) : WireName := n.flatMap fun l => l.splitOn octetDot

theorem splitOn_ne_nil_octets (l : List UInt8) : l.splitOn octetDot ≠ [] := by
  rw [splitOn]
  exact splitOnP_ne_nil _ _

theorem cutAtDots_eq_nil : cutAtDots n = [] ↔ n = [] := by
  simp only [cutAtDots, flatMap_eq_nil_iff, splitOn_ne_nil_octets, imp_false]
  exact eq_nil_iff_forall_not_mem.symm

theorem not_mem_of_mem_splitOn {d : UInt8} : ∀ {l x : List UInt8}, x ∈ l.splitOn d → d ∉ x
  | [], x, h => by
    obtain rfl : x = [] := by simpa [splitOn] using h
    simp
  | a :: l, x, h => by
    rw [splitOn, splitOnP_cons_eq_if_modifyHead] at h
    split at h
    · rcases mem_cons.1 h with rfl | h
      · simp
      · exact not_mem_of_mem_splitOn h
    next ha =>
      obtain ⟨y, ys, hy⟩ := exists_cons_of_ne_nil (splitOnP_ne_nil (· == d) l)
      have ih : ∀ z ∈ y :: ys, d ∉ z := fun z hz => not_mem_of_mem_splitOn (l := l) (by rw [splitOn, hy]; exact hz)
      rw [hy, modifyHead_cons, mem_cons] at h
      rcases h with rfl | h
      · rw [mem_cons, not_or]
        exact ⟨fun hd => ha (by simp [hd]), ih y mem_cons_self⟩
      · exact ih x (mem_cons_of_mem _ h)

theorem undotted_cutAtDots (n : WireName) : Undotted (cutAtDots n) := by
  intro l hl
  obtain ⟨l', -, hl'⟩ := mem_flatMap.1 hl
  exact not_mem_of_mem_splitOn hl'

theorem flatMap_printLabel : ∀ {ls : WireName}, ls ≠ [] →
    (ls.flatMap fun l => printLabel l ++ ['.']) = printLabel (List.intercalate [octetDot] ls) ++ ['.']
  | [l], _ => by simp
  | l :: l' :: ls, _ => by
    rw [flatMap_cons, flatMap_printLabel (cons_ne_nil l' ls), intercalate_cons_cons]
    simp only [printLabel, map_append, append_assoc]
    rfl

theorem printName_cutAtDots (n : WireName) : printName (cutAtDots n) = printName n := by
  by_cases hn : n = []
  · subst hn
    rfl
  rw [printName, if_neg (cutAtDots_eq_nil.not.2 hn), printName, if_neg hn, cutAtDots, flatMap_assoc]
  refine flatMap_congr fun l _ => ?_
  rw [flatMap_printLabel (splitOn_ne_nil_octets l), intercalate_splitOn]

theorem printName_eq_root (h : ∀ l ∈ n, l ≠ []) (hr : printName n = ['.']) : n = [] := by
  cases n with
  | nil => rfl
  | cons l ls =>
    have hlen := congrArg length hr
    have hl : l.length ≠ 0 := fun h0 => h l mem_cons_self (length_eq_zero_iff.1 h0)
    simp only [printName, if_neg (cons_ne_nil l ls), flatMap_cons, length_append, printLabel, length_map,
      length_singleton] at hlen
    omega

theorem printName_eq_iff {m : WireName} (hm : ∀ l ∈ m, l ≠ []) (hn : ∀ l ∈ n, l ≠ []) :
    printName m = printName n ↔ cutAtDots m = cutAtDots n := by
  constructor
  · intro h
    by_cases hm0 : m = []
    · subst hm0
      rw [printName_eq_root hn h.symm]
    by_cases hn0 : n = []
    · subst hn0
      rw [printName_eq_root hm h]
    -- both are joins of texts without a dot, which the split gives back
    have hsp : ∀ {k : WireName}, k ≠ [] →
        (printName k).trimDot.splitOn '.' = (cutAtDots k).map printLabel := by
      intro k hk
      have hck : cutAtDots k ≠ [] := cutAtDots_eq_nil.not.2 hk
      rw [← printName_cutAtDots, trimDot_printName hck]
      refine splitOn_intercalate '.' (fun t ht => ?_) (by simpa using hck)
      obtain ⟨l, hl, rfl⟩ := mem_map.1 ht
      exact fun hd => undotted_cutAtDots k l hl (dot_mem_printLabel.1 hd)
    have hmp := hsp hm0
    rw [h, hsp hn0] at hmp
    exact (map_injective_iff.2 printLabel_injective hmp).symm
  · intro h
    rw [← printName_cutAtDots m, h, printName_cutAtDots]

theorem Undotted.cutAtDots_eq (hd : Undotted n) : cutAtDots n = n := by
  rw [cutAtDots]
  conv_rhs => rw [← flatMap_singleton' n]
  exact flatMap_congr fun l hl => splitOn_eq_singleton (hd l hl)

/-- **Names as text.** The texts of two names from the wire tell them apart up to case exactly if cutting them at
their dot octets does, as it does where no label has one; and `ParseName` reads a name back exactly if it accepts each
of its labels. -/
theorem printName_faithful {buf buf' : List UInt8} {offset offset' len len' : Nat} {m n : WireName}
    (hm : unpackName buf offset = .ok (m, len)) (hn : unpackName buf' offset' = .ok (n, len')) :
    (((printName m).lower = (printName n).lower ↔ lowerName m = lowerName n) ↔
      (cutAtDots (lowerName m) = cutAtDots (lowerName n) → lowerName m = lowerName n)) ∧
    (Undotted m → Undotted n → cutAtDots (lowerName m) = cutAtDots (lowerName n) → lowerName m = lowerName n) ∧
    ((parseName (printName m)).map labelsFromWire = some m ↔ ∀ l ∈ m, validateLabel (printLabel l) = true) := by
  have hvm := unpackName_valid hm
  have hvn := unpackName_valid hn
  refine ⟨?_, fun hmd hnd h => ?_, fun h => ?_, fun h => ?_⟩
  · rw [lower_printName, lower_printName,
      printName_eq_iff (lowerName_ne_nil hvm.ne_nil) (lowerName_ne_nil hvn.ne_nil)]
    exact ⟨fun h => h.1, fun h => ⟨h, congrArg cutAtDots⟩⟩
  · rwa [hmd.lowerName.cutAtDots_eq, hnd.lowerName.cutAtDots_eq] at h
  · obtain ⟨w, hw, rfl⟩ := Option.map_eq_some_iff.1 h
    exact fun l hl => parseName_labels hw l (takeWhile_subset _ hl)
  · rw [parseName_printName hvm h, Option.map_some, labelsFromWire, takeWhile_eq_self_iff.2]
    intro l hl
    simpa using hvm.ne_nil l hl

theorem printName_faithful_example :
    ((printName [[119, 45, 119], [65]]).lower = (printName [[119, 45, 119], [97]]).lower) ∧
    (parseName (printName [[119, 45, 119], [65]])).map labelsFromWire = some [[119, 45, 119], [65]] := by
  have h := @printName_faithful [3, 119, 45, 119, 1, 65, 0] [3, 119, 45, 119, 1, 97, 0] 0 0 7 7
    [[119, 45, 119], [65]] [[119, 45, 119], [97]] (by rfl) (by rfl)
  exact ⟨(h.1.2 (h.2.1 (by decide) (by decide))).2 (by decide), h.2.2.2 (by decide)⟩

theorem printName_dotted : unpackName [3, 97, 46, 98, 0] 0 = .ok ([[97, 46, 98]], 5) ∧
    unpackName [1, 97, 1, 98, 0] 0 = .ok ([[97], [98]], 5) ∧ unpackName [3, 97, 32, 98, 0] 0 = .ok ([[97, 32, 98]], 5) ∧
    printName [[97, 46, 98]] = printName [[97], [98]] ∧ lowerName [[97, 46, 98]] ≠ lowerName [[97], [98]] ∧
    parseName (printName [[97, 46, 98]]) = some [[97], [98]] ∧ parseName (printName [[97, 32, 98]]) = none := by
  refine ⟨by rfl, by rfl, by rfl, by decide, by decide, by decide, by decide⟩

end NothingDNS.Protocol
