import ExprTree.Notice
/-!
# Wrapped text

Wrapping keeps all of a text but its blanks. A line is cut into words and words
into pieces, which loses nothing, and whatever layout is cheapest, its lines take
all the pieces in order. So an error message is shown in full.
-/

namespace ExprTree

namespace Text

def ink (text : List Char) : List Char :=
  text.filter (· ≠ ' ')

section

variable (text : List Char)

@[simp] theorem ink_append (rest : List Char) : ink (text ++ rest) = ink text ++ ink rest :=
  List.filter_append text rest

theorem ink_reverse : ink text.reverse = (ink text).reverse :=
  List.filter_reverse

@[simp] theorem ink_replicate (n : Nat) : ink (List.replicate n ' ') = [] := by
  simp [ink]

theorem ink_takeWhile : ink (text.takeWhile (· = ' ')) = [] := by
  induction text with
  | nil => rfl
  | cons c text ih =>
      by_cases hc : c = ' '
      · simpa [ink, hc] using ih
      · simp [ink, hc]

theorem ink_dropWhile : ink (text.dropWhile (· = ' ')) = ink text := by
  calc ink (text.dropWhile (· = ' '))
      = ink (text.takeWhile (· = ' ')) ++ ink (text.dropWhile (· = ' ')) := by
        rw [ink_takeWhile, List.nil_append]
    _ = ink text := by rw [← ink_append, List.takeWhile_append_dropWhile]

theorem ink_trimmed : ink (text.reverse.dropWhile (· = ' ')).reverse = ink text := by
  rw [ink_reverse, ink_dropWhile, ink_reverse, List.reverse_reverse]

end

/-! ## Words and pieces -/

def contents (fs : List Fragment) : List Char :=
  (fs.map Fragment.word).flatten

@[simp] theorem contents_cons (f : Fragment) (fs : List Fragment) :
    contents (f :: fs) = f.word ++ contents fs := rfl

@[simp] theorem contents_append (fs gs : List Fragment) :
    contents (fs ++ gs) = contents fs ++ contents gs := by
  simp [contents]

theorem flatten_wordsAfter (word : List Char) (mode : Mode) (rest : List Char)
    (ends : List Bool) : (wordsAfter word mode rest ends).flatten = word.reverse ++ rest := by
  fun_induction wordsAfter word mode rest ends <;> simp_all

theorem contents_piecesAfter (width blanks : Nat) (piece : List Char) (used : Nat) (mode : Mode)
    (rest : List Char) :
    contents (piecesAfter width blanks piece used mode rest) = piece.reverse ++ rest := by
  fun_induction piecesAfter width blanks piece used mode rest <;> simp_all [contents]

theorem ink_contents_ofText (texts : List (List Char)) :
    ink (contents (texts.map .ofText)) = ink texts.flatten := by
  induction texts with
  | nil => rfl
  | cons text texts ih =>
      rw [List.map_cons, contents_cons, List.flatten_cons, ink_append, ink_append, ih]
      exact congrArg (· ++ ink texts.flatten) (ink_trimmed text)

theorem ink_contents_fragments (line : List Char) : ink (contents (fragments line)) = ink line := by
  rw [fragments, ink_contents_ofText, flatten_wordsAfter]
  rfl

theorem contents_flatMap_pieces (width : Nat) (fs : List Fragment) :
    contents (fs.flatMap (Fragment.pieces width)) = contents fs := by
  induction fs with
  | nil => rfl
  | cons f fs ih =>
      rw [List.flatMap_cons, contents_append, contents_cons, ih, Fragment.pieces,
        contents_piecesAfter]
      rfl

/-! ## Layouts -/

def Layout.Covers (l : Layout) (fs : List Fragment) : Prop :=
  (divide l.counts fs).flatten = fs

/-- A layout of the list and one of each of its ends, longest first. -/
inductive Covered : List Fragment → List Layout → Prop where
  | nil {l : Layout} : l.Covers [] → Covered [] [l]
  | cons {f : Fragment} {fs : List Fragment} {l : Layout} {later : List Layout} :
      l.Covers (f :: fs) → Covered fs later → Covered (f :: fs) (l :: later)

theorem Layout.Covers.line {l : Layout} {fs : List Fragment} (h : l.Covers fs)
    (seen : List Fragment) (cost : Nat) :
    Layout.Covers ⟨cost, seen.length :: l.counts⟩ (seen ++ fs) := by
  rw [Layout.Covers, divide, List.take_left, List.drop_left, List.flatten_cons, h]

theorem candidates_cover {rest : List Fragment} {later : List Layout} (h : Covered rest later)
    (width used blanks : Nat) (seen : List Fragment) :
    ∀ l ∈ candidates width used blanks seen.length rest later, l.Covers (seen ++ rest) := by
  induction h generalizing used blanks seen with
  | nil hnext =>
      intro l hl
      rw [candidates, List.mem_singleton] at hl
      subst hl
      exact hnext.line seen _
  | @cons f fs next later hnext _ ih =>
      intro l hl
      rw [candidates, List.mem_cons] at hl
      rcases hl with rfl | hl
      · exact hnext.line seen _
      · split at hl
        · cases hl
        · -- A longer line has taken `f` as well.
          have hcovers := ih (used + blanks + f.columns) f.blanks (seen ++ [f]) l
          rw [List.length_append, List.append_assoc] at hcovers
          exact hcovers hl

theorem candidates_ne_nil {rest : List Fragment} {later : List Layout} (h : Covered rest later)
    (width used blanks count : Nat) : candidates width used blanks count rest later ≠ [] := by
  cases h <;> simp [candidates]

theorem cheapest_mem (best : Layout) (others : List Layout) :
    cheapest best others ∈ best :: others := by
  induction others generalizing best with
  | nil => exact List.mem_singleton_self best
  | cons next others ih =>
      rw [cheapest]
      rcases List.mem_cons.1 (ih (if next.cost < best.cost then next else best)) with hbest | hmem
      · rw [hbest]
        split <;> simp
      · simp [hmem]

theorem layouts_covered (width : Nat) (fs : List Fragment) : Covered fs (layouts width fs) := by
  induction fs with
  | nil => exact .nil rfl
  | cons f fs ih =>
      have hcover := candidates_cover ih width f.columns f.blanks [f]
      rw [layouts]
      split
      · rename_i hnone
        exact absurd hnone (candidates_ne_nil ih _ _ _ _)
      · rename_i first others hsome
        refine .cons (hcover _ ?_) ih
        rw [List.length_singleton, hsome]
        exact cheapest_mem first others

theorem ink_joined (fs : List Fragment) : ink (joined fs) = ink (contents fs) := by
  fun_induction joined fs <;> simp_all [contents]

theorem ink_joined_lines (lines : List (List Fragment)) :
    ink (lines.map joined).flatten = ink (contents lines.flatten) := by
  induction lines with
  | nil => rfl
  | cons line lines ih =>
      rw [List.map_cons, List.flatten_cons, List.flatten_cons, contents_append, ink_append,
        ink_append, ih, ink_joined]

theorem ink_layOut (width : Nat) (fs : List Fragment) :
    ink (layOut width fs).flatten = ink (contents fs) := by
  have hcovered := layouts_covered width fs
  rw [layOut]
  cases hlayouts : layouts width fs with
  | nil =>
      rw [hlayouts] at hcovered
      cases hcovered
  | cons best later =>
      have hbest : best.Covers fs := by
        rw [hlayouts] at hcovered
        cases hcovered with
        | nil h => exact h
        | cons h _ => exact h
      rw [ink_joined_lines, hbest]

/-! ## Lines and messages -/

theorem ink_indented (indent : List Char) (hindent : ink indent = []) (lines : List (List Char)) :
    ink (lines.map (indent ++ ·)).flatten = ink lines.flatten := by
  induction lines with
  | nil => rfl
  | cons line lines ih =>
      simp only [List.map_cons, List.flatten_cons, ink_append, ih, hindent, List.nil_append]

/-- Wrapping a line adds and drops blanks only. -/
theorem ink_wrap (width : Nat) (line : List Char) : ink (wrap width line).flatten = ink line := by
  have hcontent : ink (line.dropWhile (· = ' ')) = ink line := ink_dropWhile line
  have hpieces (free : Nat) :
      ink (contents ((fragments (line.dropWhile (· = ' '))).flatMap (Fragment.pieces free)))
        = ink line := by
    rw [contents_flatMap_pieces, ink_contents_fragments, hcontent]
  rw [wrap]
  split
  · split
    · rw [List.flatten_singleton, ink_trimmed, hcontent]
    · rw [ink_layOut, hpieces]
  · rw [ink_indented _ (ink_takeWhile line), ink_layOut, contents_cons, List.nil_append, hpieces]

theorem ink_flatMap_wrap (width : Nat) (lines : List (List Char)) :
    ink (lines.flatMap (wrap width)).flatten = ink lines.flatten := by
  induction lines with
  | nil => rfl
  | cons line lines ih =>
      rw [List.flatMap_cons, List.flatten_append, List.flatten_cons, ink_append, ink_append,
        ink_wrap, ih]

end Text

namespace Notice

/-- A message is shown in full, up to blanks and the ends of lines. -/
theorem ink_messageLines (message : String) :
    Text.ink ((messageLines message).flatMap String.toList)
      = Text.ink (Text.lines message.toList).flatten := by
  have hshown (lines : List (List Char)) :
      (lines.map String.ofList).flatMap String.toList = lines.flatten := by
    simp [List.flatMap_map]
  rw [messageLines, hshown, Text.ink_flatMap_wrap]

end Notice

end ExprTree
