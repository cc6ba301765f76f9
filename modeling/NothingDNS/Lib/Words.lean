import NothingDNS.Lib.DottedName
/-!
# Words and lines of a text

Splitting at white space, joining with blanks, and splitting into lines of a bounded length.
-/

namespace Text

open List

variable {s : Char}

theorem trimSpace_cons_space (hs : isSpace s = true) (t : Text) : trimSpace (s :: t) = trimSpace t := by
  rw [trimSpace, dropWhile_cons_of_pos hs, trimSpace]

theorem trimSpace_append_space (hs : isSpace s = true) (t : Text) : trimSpace (t ++ [s]) = trimSpace t := by
  rw [trimSpace, trimSpace, dropWhile_append]
  split
  next h =>
    rw [isEmpty_iff.1 h, dropWhile_cons_of_pos hs]
    rfl
  next => rw [rdropWhile_concat_pos _ _ _ hs]

def wordsLoop (word : Text) : Text → List Text
  | [] => if word = [] then [] else [word]
  | c :: t =>
    if isSpace c = true then (if word = [] then wordsLoop [] t else word :: wordsLoop [] t)
    else wordsLoop (word ++ [c]) t

/-- `strings.Fields`. -/
def words (t : Text) : List Text := wordsLoop [] t

/-- `strings.Join(ws, " ")`. -/
def unwords : List Text → Text
  | [] => []
  | [w] => w
  | w :: ws => w ++ ' ' :: unwords ws

def Word (w : Text) : Prop := w ≠ [] ∧ ∀ c ∈ w, isSpace c = false

instance (w : Text) : Decidable (Word w) := @instDecidableAnd _ _ inferInstance (List.decidableBAll _ w)

theorem unwords_cons_cons (w v : Text) (ws : List Text) : unwords (w :: v :: ws) = w ++ ' ' :: unwords (v :: ws) := rfl

variable {w : Text}

theorem wordsLoop_append (hw : ∀ c ∈ w, isSpace c = false) (word t : Text) :
    wordsLoop word (w ++ t) = wordsLoop (word ++ w) t := by
  induction w generalizing word with
  | nil => simp
  | cons c w ih =>
    have hc : ¬ isSpace c = true := by simp [hw c mem_cons_self]
    rw [cons_append, wordsLoop, if_neg hc, ih fun d hd => hw d (mem_cons_of_mem _ hd)]
    simp

@[simp] theorem words_nil : words [] = [] := rfl

theorem words_space (hs : isSpace s = true) (t : Text) : words (s :: t) = words t := by
  rw [words, wordsLoop, if_pos hs, if_pos rfl, words]

theorem Word.words_cons (hw : Word w) (hs : isSpace s = true) (t : Text) : words (w ++ s :: t) = w :: words t := by
  rw [words, wordsLoop_append hw.2, nil_append, wordsLoop, if_pos hs, if_neg hw.1, words]

theorem Word.words_self (hw : Word w) : words w = [w] := by
  have h := wordsLoop_append hw.2 [] []
  rw [append_nil, nil_append] at h
  rw [words, h, wordsLoop, if_neg hw.1]

variable {ws : List Text}

theorem words_unwords (h : ∀ w ∈ ws, Word w) : words (unwords ws) = ws := by
  induction ws with
  | nil => rfl
  | cons w ws ih =>
    have hw := h w mem_cons_self
    cases ws with
    | nil => exact hw.words_self
    | cons v ws => rw [unwords_cons_cons, hw.words_cons (by decide), ih fun u hu => h u (mem_cons_of_mem _ hu)]

theorem mem_unwords {c : Char} (h : c ∈ unwords ws) : c = ' ' ∨ ∃ w ∈ ws, c ∈ w := by
  induction ws with
  | nil => cases h
  | cons w ws ih =>
    cases ws with
    | nil => exact .inr ⟨w, mem_cons_self, h⟩
    | cons v ws =>
      rw [unwords_cons_cons, mem_append, mem_cons] at h
      rcases h with h | h | h
      · exact .inr ⟨w, mem_cons_self, h⟩
      · exact .inl h
      · rcases ih h with h | ⟨u, hu, hc⟩
        · exact .inl h
        · exact .inr ⟨u, mem_cons_of_mem _ hu, hc⟩

theorem getLast?_unwords (h : ∀ w ∈ ws, Word w) {c : Char}
    (hc : (unwords ws).getLast? = some c) : isSpace c = false := by
  induction ws with
  | nil => cases hc
  | cons w ws ih =>
    cases ws with
    | nil => exact (h w mem_cons_self).2 c (mem_of_getLast? hc)
    | cons v ws =>
      have hrs : ∀ u ∈ v :: ws, Word u := fun u hu => h u (mem_cons_of_mem _ hu)
      have hne : unwords (v :: ws) ≠ [] := by
        cases ws with
        | nil => exact (hrs v mem_cons_self).1
        | cons u ws => rw [unwords_cons_cons]; simp
      rw [unwords_cons_cons, getLast?_append, getLast?_cons, getLast?_eq_some_getLast hne] at hc
      refine ih hrs ?_
      rw [getLast?_eq_some_getLast hne]
      simpa using hc

/-- `bufio.ScanLines` takes a carriage return off the end of a line. -/
def dropCR (line : Text) : Text := if line.getLast? = some '\r' then line.dropLast else line

/-- The lines of a text; `none` is a line of `limit` characters or more, where the scanner stops. -/
def scanLines (limit : Nat) (line : Text) : Text → List (Option Text)
  | [] => if line = [] then [] else if limit ≤ line.length then [none] else [some (dropCR line)]
  | c :: t =>
    if c = '\n' then
      (if limit ≤ line.length then [none] else some (dropCR line) :: scanLines limit [] t)
    else scanLines limit (line ++ [c]) t

def unlines (ls : List Text) : Text := ls.flatMap (· ++ ['\n'])

theorem scanLines_append {limit : Nat} {l : Text} (hl : '\n' ∉ l) (line t : Text) :
    scanLines limit line (l ++ t) = scanLines limit (line ++ l) t := by
  induction l generalizing line with
  | nil => simp
  | cons c l ih =>
    have hc : ¬ c = '\n' := fun h => hl (h ▸ mem_cons_self)
    rw [cons_append, scanLines, if_neg hc, ih fun h => hl (mem_cons_of_mem _ h)]
    simp

theorem scanLines_unlines {limit : Nat} {ls : List Text} (h : ∀ l ∈ ls, l.length < limit ∧ '\n' ∉ l ∧ '\r' ∉ l) :
    scanLines limit [] (unlines ls) = ls.map some := by
  induction ls with
  | nil => rfl
  | cons l ls ih =>
    obtain ⟨hlen, hnl, hcr⟩ := h l mem_cons_self
    have hd : dropCR l = l := by
      rw [dropCR, if_neg]
      intro hls
      exact hcr (mem_of_getLast? hls)
    rw [unlines, flatMap_cons, append_assoc, scanLines_append hnl, nil_append,
      singleton_append, scanLines, if_pos rfl, if_neg (not_le.2 hlen), hd, map_cons]
    congr 1
    exact ih fun l' hl' => h l' (mem_cons_of_mem _ hl')

end Text
