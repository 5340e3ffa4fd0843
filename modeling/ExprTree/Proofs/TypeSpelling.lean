import Mathlib.Logic.ExistsUnique
import ExprTree.Ty
/-!
# Spellings of types

The grammar of type texts: a chain is an operand, or an operand, an arrow and a
chain; an operand is a word or a chain in parentheses. So arrows associate to
the right, and parentheses may stand around any type. No text has two spellings
in this grammar: an operand ends by itself, since its parentheses close, and a
chain ends where no blank follows. The written form of a type is the text of a
spelling that has parentheses around the functions to the left of an arrow and
nowhere else. Hence it has one reading, and that gives back the type.
-/

namespace ExprTree.Ty

/-! ## The grammar -/

inductive Phrase where
  | operand
  | chain

/-- A phrase together with all its parentheses. -/
inductive Spelling : Phrase → Type where
  | bool : Spelling .operand
  | int : Spelling .operand
  | parens (inner : Spelling .chain) : Spelling .operand
  | single (operand : Spelling .operand) : Spelling .chain
  | arrow (arg : Spelling .operand) (result : Spelling .chain) : Spelling .chain

namespace Spelling

def text {phrase : Phrase} : Spelling phrase → String
  | bool => "Bool"
  | int => "Int"
  | parens inner => "(" ++ inner.text ++ ")"
  | single operand => operand.text
  | arrow arg result => arg.text ++ " -> " ++ result.text

def ty {phrase : Phrase} : Spelling phrase → Ty
  | bool => .bool
  | int => .int
  | parens inner => inner.ty
  | single operand => operand.ty
  | arrow arg result => .fn arg.ty result.ty

def isParens {phrase : Phrase} : Spelling phrase → Bool
  | parens _ => true
  | _ => false

def isArrow {phrase : Phrase} : Spelling phrase → Bool
  | arrow _ _ => true
  | _ => false

/-- Parentheses stand around functions to the left of an arrow, and nowhere else. -/
def Exact {phrase : Phrase} : Spelling phrase → Prop
  | bool => True
  | int => True
  | parens inner => inner.isArrow = true ∧ inner.Exact
  | single operand => operand.isParens = false
  | arrow arg result => arg.Exact ∧ result.Exact

def toOperand : Spelling .chain → Spelling .operand
  | single operand => operand
  | arrow arg result => parens (arrow arg result)

end Spelling

def spelling : Ty → Spelling .chain
  | bool => .single .bool
  | int => .single .int
  | fn arg result => .arrow arg.spelling.toOperand result.spelling

/-! ## Texts have one spelling -/

/-- The text after a phrase does not make it longer: only a chain goes on, and with a blank. -/
def Phrase.EndsBefore : Phrase → List Char → Prop
  | operand, _ => True
  | chain, rest => rest.head? ≠ some ' '

namespace Spelling

variable {phrase : Phrase}

theorem toList_text_parens (inner : Spelling .chain) (rest : List Char) :
    (parens inner).text.toList ++ rest = '(' :: (inner.text.toList ++ ')' :: rest) := by
  simp [text]

theorem toList_text_arrow (arg : Spelling .operand) (result : Spelling .chain) (rest : List Char) :
    (arrow arg result).text.toList ++ rest =
      arg.text.toList ++ (" -> ".toList ++ (result.text.toList ++ rest)) := by
  simp [text]

/-- A spelling can be read off its text, whatever comes after it. -/
theorem text_append_inj (s : Spelling phrase) :
    ∀ (s' : Spelling phrase) {rest rest' : List Char}, phrase.EndsBefore rest →
      phrase.EndsBefore rest' → s.text.toList ++ rest = s'.text.toList ++ rest' →
        s = s' ∧ rest = rest' := by
  induction s with
  | bool =>
      intro s' rest rest' _ _ h
      cases s' with
      | bool => exact ⟨rfl, List.append_cancel_left h⟩
      | int => simp [text] at h
      | parens inner' => simp [text] at h
  | int =>
      intro s' rest rest' _ _ h
      cases s' with
      | bool => simp [text] at h
      | int => exact ⟨rfl, List.append_cancel_left h⟩
      | parens inner' => simp [text] at h
  | parens inner ih =>
      intro s' rest rest' _ _ h
      cases s' with
      | bool => simp [text] at h
      | int => simp [text] at h
      | parens inner' =>
          -- the inner chain ends at the parenthesis that closes it
          have hends (rest : List Char) : Phrase.chain.EndsBefore (')' :: rest) := by
            simp [Phrase.EndsBefore]
          rw [toList_text_parens, toList_text_parens] at h
          obtain ⟨rfl, hclose⟩ := ih inner' (hends rest) (hends rest') (List.cons.inj h).2
          exact ⟨rfl, (List.cons.inj hclose).2⟩
  | single operand ih =>
      intro s' rest rest' hrest _ h
      cases s' with
      | single operand' =>
          obtain ⟨rfl, htail⟩ := ih operand' trivial trivial h
          exact ⟨rfl, htail⟩
      | arrow arg' result' =>
          -- the operand ends before the arrow, but no blank comes after the chain
          rw [toList_text_arrow] at h
          obtain ⟨-, rfl⟩ := ih arg' trivial trivial h
          exact absurd rfl hrest
  | arrow arg result iharg ihresult =>
      intro s' rest rest' hrest hrest' h
      cases s' with
      | single operand' =>
          rw [toList_text_arrow] at h
          obtain ⟨-, rfl⟩ := iharg operand' trivial trivial h
          exact absurd rfl hrest'
      | arrow arg' result' =>
          rw [toList_text_arrow, toList_text_arrow] at h
          obtain ⟨rfl, hresult⟩ := iharg arg' trivial trivial h
          obtain ⟨rfl, htail⟩ :=
            ihresult result' hrest hrest' (List.append_cancel_left hresult)
          exact ⟨rfl, htail⟩

theorem text_inj {s s' : Spelling phrase} (h : s.text = s'.text) : s = s' := by
  have hends : phrase.EndsBefore [] := by cases phrase <;> simp [Phrase.EndsBefore]
  exact (s.text_append_inj s' hends hends (by rw [h])).1

/-! ## Parentheses -/

theorem ty_toOperand (s : Spelling .chain) : s.toOperand.ty = s.ty := by
  cases s <;> rfl

theorem Exact.toOperand {s : Spelling .chain} (h : s.Exact) : s.toOperand.Exact := by
  cases s with
  | single operand =>
      cases operand with
      | bool => trivial
      | int => trivial
      | parens inner => cases h
  | arrow arg result => exact ⟨rfl, h⟩

theorem isFn_ty_of_isArrow {s : Spelling phrase} (h : s.isArrow = true) : s.ty.isFn = true := by
  cases s with
  | arrow arg result => rfl
  | _ => cases h

end Spelling

theorem ty_spelling (a : Ty) : a.spelling.ty = a := by
  induction a with
  | bool => rfl
  | int => rfl
  | fn arg result iharg ihresult =>
      rw [spelling, Spelling.ty, Spelling.ty_toOperand, iharg, ihresult]

theorem exact_spelling (a : Ty) : a.spelling.Exact := by
  induction a with
  | bool => rfl
  | int => rfl
  | fn arg result iharg ihresult => exact ⟨iharg.toOperand, ihresult⟩

def textAs (a : Ty) : Phrase → String
  | .operand => if a.isFn then "(" ++ a.text ++ ")" else a.text
  | .chain => a.text

/-- The written form has the parentheses of the exact spellings. -/
theorem Spelling.Exact.text_eq {phrase : Phrase} {s : Spelling phrase} (h : s.Exact) :
    s.text = s.ty.textAs phrase := by
  induction s with
  | bool => rfl
  | int => rfl
  | parens inner ih =>
      obtain ⟨harrow, hinner⟩ := h
      have hfn : inner.ty.isFn = true := isFn_ty_of_isArrow harrow
      rw [text, ty, textAs, if_pos hfn, ih hinner, textAs]
  | single operand =>
      cases operand with
      | bool => rfl
      | int => rfl
      | parens inner => cases h
  | arrow arg result iharg ihresult =>
      obtain ⟨harg, hresult⟩ := h
      calc (arrow arg result).text
        _ = arg.text ++ " -> " ++ result.text := rfl
        _ = arg.ty.textAs .operand ++ " -> " ++ result.ty.textAs .chain := by
            rw [iharg harg, ihresult hresult]
        _ = (arrow arg result).ty.textAs .chain := rfl

theorem text_spelling (a : Ty) : a.spelling.text = a.text := by
  rw [a.exact_spelling.text_eq, a.ty_spelling, textAs]

/-! ## Reading a type -/

/-- The written form is read in one way. -/
theorem eq_spelling_of_text {s : Spelling .chain} {a : Ty} (h : s.text = a.text) :
    s = a.spelling :=
  Spelling.text_inj (h.trans a.text_spelling.symm)

/-- The written form determines the type. It has one spelling, the one that means the type and has
parentheses around the functions to the left of an arrow and nowhere else. -/
theorem text_reads_back (a : Ty) :
    (∀ b : Ty, a.text = b.text ↔ a = b) ∧
      (∃! s : Spelling .chain, s.text = a.text) ∧
        ∀ s : Spelling .chain, s.text = a.text ↔ s.ty = a ∧ s.Exact := by
  refine ⟨?_, ?_, ?_⟩
  · intro b
    constructor
    · intro h
      have hspelling : a.spelling = b.spelling := eq_spelling_of_text (a.text_spelling.trans h)
      rw [← a.ty_spelling, hspelling, b.ty_spelling]
    · intro h
      rw [h]
  · refine ⟨a.spelling, a.text_spelling, ?_⟩
    intro s h
    exact eq_spelling_of_text h
  · intro s
    constructor
    · intro h
      rw [eq_spelling_of_text h]
      exact ⟨a.ty_spelling, a.exact_spelling⟩
    · rintro ⟨rfl, hexact⟩
      exact hexact.text_eq

example : (fn (fn int bool) (fn int int)).text = "(Int -> Bool) -> Int -> Int" := by decide

end ExprTree.Ty
