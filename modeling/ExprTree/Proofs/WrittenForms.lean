import ExprTree.Proofs.Construction
import ExprTree.Tree.Rendering
/-!
# Written forms

The written form of a tree can be read back, except for the types that its
symbols carry. A name ends where a blank or a closing parenthesis stands, and no
two symbols that differ by more than types have the same name; a list of
arguments ends with the parenthesis that closes it. So the text and what follows
it determine the tree, and two trees have the same text if and only if they
differ in types alone.
-/

namespace ExprTree

/-! ## Texts and where they end -/

/-- Where characters of one kind are followed by one of another kind, or by nothing, the text falls
apart in one way. -/
theorem append_inj_of_kind {kind : Char → Bool} {u v rest rest' : List Char}
    (hu : ∀ c ∈ u, kind c = true) (hv : ∀ c ∈ v, kind c = true)
    (hrest : ∀ c ∈ rest.head?, kind c = false) (hrest' : ∀ c ∈ rest'.head?, kind c = false)
    (h : u ++ rest = v ++ rest') : u = v ∧ rest = rest' := by
  have htake {w rest : List Char} (hw : ∀ c ∈ w, kind c = true)
      (hrest : ∀ c ∈ rest.head?, kind c = false) : (w ++ rest).takeWhile kind = w := by
    rw [List.takeWhile_append_of_pos hw]
    cases rest with
    | nil => simp
    | cons c rest => simp [hrest c rfl]
  have huv : u = v := by rw [← htake hu hrest, h, htake hv hrest']
  subst huv
  exact ⟨rfl, List.append_cancel_left h⟩

def isPlain (c : Char) : Bool :=
  c != ' ' && c != '(' && c != ')'

/-- The text does not go on with a character of a word. -/
def EndsWord (text : List Char) : Prop :=
  ∀ c ∈ text.head?, isPlain c = false

theorem isPlain_of_isDigit {c : Char} (h : c.isDigit = true) : isPlain c = true := by
  have hne {d : Char} (hd : d.isDigit = false) : c ≠ d := by
    rintro rfl
    cases h.symm.trans hd
  simp [isPlain, hne]

theorem toDigits_inj {m n : Nat} (h : Nat.toDigits 10 m = Nat.toDigits 10 n) : m = n := by
  rw [← Nat.ofDigitChars_ten_toDigits (n := m), h, Nat.ofDigitChars_ten_toDigits]

/-! ## Names -/

namespace Symbol

def eraseTypes : Symbol → Symbol
  | cond _ => cond .int
  | var id _ => var id .int
  | lambda id _ _ => lambda id .int .int
  | letIn _ _ => letIn .int .int
  | call _ _ => call .int .int
  | s => s

def sign : Symbol → List Char
  | int n => if 0 ≤ n.toInt then [] else ['-']
  | var _ _ => ['v']
  | lambda _ _ _ => ['\\', 'v']
  | s => s.name.toList

def number? : Symbol → Option Nat
  | int n => some n.toInt.natAbs
  | var id _ => some id
  | lambda id _ _ => some id
  | _ => none

def digits (s : Symbol) : List Char :=
  (s.number?.map (Nat.toDigits 10)).getD []

/-- What comes after the number: only the names of functions go on, and with a blank. -/
def arrow : Symbol → List Char
  | lambda _ _ _ => [' ', '-', '>']
  | _ => []

theorem toList_name (s : Symbol) : s.name.toList = s.sign ++ s.digits ++ s.arrow := by
  cases s with
  | int n =>
      have hrepr : intText n = n.toInt.repr := rfl
      rw [name, hrepr, Int.repr_eq_if]
      by_cases hn : 0 ≤ n.toInt
      · have habs : n.toInt.toNat = n.toInt.natAbs := by omega
        simp [sign, digits, number?, arrow, Nat.repr, hn, habs]
      · have habs : (-n.toInt).toNat = n.toInt.natAbs := by omega
        simp [sign, digits, number?, arrow, Nat.repr, hn, habs]
  | _ => simp [sign, digits, number?, arrow, name]

theorem name_eraseTypes (s : Symbol) : s.eraseTypes.name = s.name := by
  cases s <;> rfl

theorem sign_eraseTypes (s : Symbol) : s.eraseTypes.sign = s.sign := by
  cases s <;> rfl

theorem arrow_eraseTypes (s : Symbol) : s.eraseTypes.arrow = s.arrow := by
  cases s <;> rfl

def keywords : List Symbol :=
  [bool true, bool false, arith .add, arith .sub, arith .mul, arith .div, compare .eq, compare .lt,
    negation, conjunction, cond .int, letIn .int .int, call .int .int]

theorem eraseTypes_mem_keywords {s : Symbol} (h : s.number? = none) : s.eraseTypes ∈ keywords := by
  cases s with
  | bool b => cases b <;> decide
  | arith op => cases op <;> decide
  | compare op => cases op <;> decide
  | int | var | lambda => cases h
  | _ => simp [keywords, eraseTypes]

theorem of_mem_sign {s : Symbol} {c : Char} (h : c ∈ s.sign) :
    (!c.isDigit) = true ∧ isPlain c = true := by
  have hkeywords : keywords.all (fun s => s.sign.all fun c => !c.isDigit && isPlain c) = true := by
    decide
  have hnumbered : [[], ['-'], ['v'], ['\\', 'v']].all
      (fun sign => sign.all fun c => !c.isDigit && isPlain c) = true := by
    decide
  simp only [List.all_eq_true, Bool.and_eq_true] at hkeywords hnumbered
  cases hnumber : s.number? with
  | none =>
      rw [← sign_eraseTypes] at h
      exact hkeywords _ (eraseTypes_mem_keywords hnumber) c h
  | some n =>
      refine hnumbered s.sign ?_ c h
      cases s with
      | int n => by_cases hn : 0 ≤ n.toInt <;> simp [sign, hn]
      | var => simp [sign]
      | lambda => simp [sign]
      | _ => cases hnumber

theorem isDigit_of_mem_digits {s : Symbol} {c : Char} (h : c ∈ s.digits) : c.isDigit = true := by
  unfold digits at h
  cases hnumber : s.number? with
  | none => simp [hnumber] at h
  | some n =>
      simp only [hnumber, Option.map_some, Option.getD_some] at h
      exact Nat.isDigit_of_mem_toDigits (by decide) (by decide) h

theorem number?_eq_of_digits {s t : Symbol} (h : s.digits = t.digits) : s.number? = t.number? := by
  have hne (n : Nat) : Nat.toDigits 10 n ≠ [] := Nat.toDigits_ne_nil
  unfold digits at h
  cases hs : s.number? <;> cases ht : t.number? <;> simp [hs, ht, hne, (hne _).symm] at h ⊢
  exact toDigits_inj h

def ofSign : List Char → Nat → Symbol
  | ['v'], n => var n .int
  | ['\\', 'v'], n => lambda n .int .int
  | ['-'], n => int (Int64.ofInt (-n))
  | _, n => int (Int64.ofInt n)

theorem ofSign_sign {s : Symbol} {n : Nat} (h : s.number? = some n) :
    ofSign s.sign n = s.eraseTypes := by
  cases s with
  | int m =>
      obtain rfl : m.toInt.natAbs = n := Option.some.inj h
      by_cases hm : 0 ≤ m.toInt
      · have hsign : (int m).sign = [] := if_pos hm
        have habs : (m.toInt.natAbs : Int) = m.toInt := by omega
        calc ofSign (int m).sign m.toInt.natAbs
          _ = int (Int64.ofInt m.toInt.natAbs) := by rw [hsign]; rfl
          _ = int m := by rw [habs, Int64.ofInt_toInt]
      · have hsign : (int m).sign = ['-'] := if_neg hm
        have habs : -(m.toInt.natAbs : Int) = m.toInt := by omega
        calc ofSign (int m).sign m.toInt.natAbs
          _ = int (Int64.ofInt (-m.toInt.natAbs)) := by rw [hsign]; rfl
          _ = int m := by rw [habs, Int64.ofInt_toInt]
  | var id ty =>
      obtain rfl : id = n := Option.some.inj h
      rfl
  | lambda id arg result =>
      obtain rfl : id = n := Option.some.inj h
      rfl
  | _ => cases h

theorem eraseTypes_eq_of_sign {s t : Symbol} (hsign : s.sign = t.sign)
    (hnumber : s.number? = t.number?) : s.eraseTypes = t.eraseTypes := by
  have hkeywords : ∀ s ∈ keywords, ∀ t ∈ keywords, s.sign = t.sign → s = t := by decide
  cases hs : s.number? with
  | none =>
      rw [← s.sign_eraseTypes, ← t.sign_eraseTypes] at hsign
      exact hkeywords _ (eraseTypes_mem_keywords hs) _
        (eraseTypes_mem_keywords (hnumber.symm.trans hs)) hsign
  | some n => rw [← ofSign_sign hs, hsign, ofSign_sign (hnumber.symm.trans hs)]

theorem isPlain_of_mem_word {s : Symbol} {c : Char} (h : c ∈ s.sign ++ s.digits) :
    isPlain c = true := by
  rcases List.mem_append.1 h with h | h
  · exact (of_mem_sign h).2
  · exact isPlain_of_isDigit (isDigit_of_mem_digits h)

/-- A name ends at the next blank or parenthesis, and it determines the symbol. -/
theorem name_append_inj {s t : Symbol} {rest rest' : List Char} (hrest : EndsWord rest)
    (hrest' : EndsWord rest') (h : s.name.toList ++ rest = t.name.toList ++ rest') :
    s.eraseTypes = t.eraseTypes ∧ rest = rest' := by
  have hends (s : Symbol) {rest : List Char} (hrest : EndsWord rest) :
      EndsWord (s.arrow ++ rest) := by
    cases s with
    | lambda =>
        rintro c ⟨⟩
        rfl
    | _ => exact hrest
  have hdigits (s : Symbol) : ∀ c ∈ s.digits.head?, (!c.isDigit) = false := by
    intro c hc
    simp [isDigit_of_mem_digits (List.mem_of_mem_head? hc)]
  rw [toList_name, toList_name, List.append_assoc _ _ rest, List.append_assoc _ _ rest'] at h
  obtain ⟨hword, htail⟩ :=
    append_inj_of_kind (fun _ => isPlain_of_mem_word) (fun _ => isPlain_of_mem_word)
      (hends s hrest) (hends t hrest') h
  obtain ⟨hsign, hdigit⟩ := append_inj_of_kind (fun c hc => (of_mem_sign hc).1)
    (fun c hc => (of_mem_sign hc).1) (hdigits s) (hdigits t) hword
  have herase := eraseTypes_eq_of_sign hsign (number?_eq_of_digits hdigit)
  refine ⟨herase, ?_⟩
  rw [← s.arrow_eraseTypes, herase, arrow_eraseTypes] at htail
  exact List.append_cancel_left htail

theorem exists_head_name (s : Symbol) : ∃ c ∈ s.name.toList.head?, isPlain c = true := by
  have hkeywords : ∀ s ∈ keywords, s.sign ≠ [] := by decide
  have hne : s.sign ++ s.digits ≠ [] := by
    cases hnumber : s.number? with
    | none =>
        have hsign := hkeywords _ (eraseTypes_mem_keywords hnumber)
        rw [sign_eraseTypes] at hsign
        simp [hsign]
    | some n =>
        have hdigits : Nat.toDigits 10 n ≠ [] := Nat.toDigits_ne_nil
        simp [digits, hnumber, hdigits]
  obtain ⟨c, word, hword⟩ := List.exists_cons_of_ne_nil hne
  have hc : c ∈ s.sign ++ s.digits := by simp [hword]
  exact ⟨c, by simp [toList_name, hword], isPlain_of_mem_word hc⟩

end Symbol

/-! ## Trees -/

namespace Tree

def eraseTypes : Tree → Tree
  | leaf s => leaf s.eraseTypes
  | node func arg => node func.eraseTypes arg.eraseTypes

def argsText (args : List Tree) : List Char :=
  args.flatMap fun arg => ' ' :: arg.render.toList

theorem eraseTypes_eq_spine (t : Tree) :
    t.eraseTypes = spine t.head.eraseTypes (t.args.map eraseTypes) := by
  induction t with
  | leaf s => rfl
  | node f x ihf _ =>
      rw [eraseTypes, ihf, head_node, args, List.map_append, List.map_singleton, spine_concat]

theorem toList_spineText (t : Tree) :
    t.spineText.toList = t.head.name.toList ++ argsText t.args := by
  induction t with
  | leaf s => simp [spineText, argsText, head, args]
  | node f x ihf _ => cases x <;> simp [spineText, argsText, head, args, render, ihf]

theorem toList_render_node (f x : Tree) :
    (node f x).render.toList =
      '(' :: ((node f x).head.name.toList ++ (argsText (node f x).args ++ [')'])) := by
  simp [render, toList_spineText]

theorem spineText_eraseTypes (t : Tree) : t.eraseTypes.spineText = t.spineText := by
  induction t with
  | leaf s => exact s.name_eraseTypes
  | node f x ihf ihx =>
      cases x with
      | leaf s => simp only [eraseTypes, spineText, ihf, s.name_eraseTypes]
      | node g y =>
          simp only [eraseTypes] at ihx
          simp only [eraseTypes, spineText, ihf, ihx]

/-- Types leave no trace in the text. -/
theorem render_eraseTypes (t : Tree) : t.eraseTypes.render = t.render := by
  cases t with
  | leaf s => exact s.name_eraseTypes
  | node f x =>
      show "(" ++ (node f x).eraseTypes.spineText ++ ")" = "(" ++ (node f x).spineText ++ ")"
      rw [spineText_eraseTypes]

theorem endsWord_argsText (args : List Tree) (rest : List Char) :
    EndsWord (argsText args ++ ')' :: rest) := by
  cases args with
  | nil =>
      rintro c ⟨⟩
      rfl
  | cons a args =>
      rintro c ⟨⟩
      rfl

/-- The text can be read in one way, whatever follows it. -/
def Readable (a : Tree) : Prop :=
  ∀ (b : Tree) {rest rest' : List Char}, EndsWord rest → EndsWord rest' →
    a.render.toList ++ rest = b.render.toList ++ rest' →
      a.eraseTypes = b.eraseTypes ∧ rest = rest'

/-- Arguments are read one by one, up to the parenthesis that closes them. -/
theorem argsText_append_inj {as bs : List Tree} (has : ∀ a ∈ as, a.Readable)
    {rest rest' : List Char}
    (h : argsText as ++ ')' :: rest = argsText bs ++ ')' :: rest') :
    as.map eraseTypes = bs.map eraseTypes ∧ rest = rest' := by
  induction as generalizing bs with
  | nil =>
      cases bs with
      | nil => exact ⟨rfl, (List.cons.inj h).2⟩
      | cons b bs => simp [argsText] at h
  | cons a as ih =>
      cases bs with
      | nil => simp [argsText] at h
      | cons b bs =>
          have htext : a.render.toList ++ (argsText as ++ ')' :: rest) =
              b.render.toList ++ (argsText bs ++ ')' :: rest') := by
            simpa [argsText] using h
          obtain ⟨hab, htail⟩ :=
            has a (by simp) b (endsWord_argsText as rest) (endsWord_argsText bs rest') htext
          obtain ⟨hargs, hrest⟩ := ih (fun a' ha' => has a' (by simp [ha'])) htail
          exact ⟨by rw [List.map_cons, List.map_cons, hab, hargs], hrest⟩

theorem leaf_render_ne (s : Symbol) (f x : Tree) (rest rest' : List Char) :
    (leaf s).render.toList ++ rest ≠ (node f x).render.toList ++ rest' := by
  intro h
  obtain ⟨c, hc, hplain⟩ := s.exists_head_name
  have hhead : ((leaf s).render.toList ++ rest).head? = some c := by
    rw [List.head?_append, show (leaf s).render.toList.head? = some c from hc]
    rfl
  rw [h, toList_render_node] at hhead
  obtain rfl : '(' = c := Option.some.inj hhead
  cases hplain

theorem readable (a : Tree) : a.Readable := by
  induction a using Tree.induction_args with
  | h a ih =>
  intro b rest rest' hrest hrest' h
  cases a with
  | leaf s =>
      cases b with
      | leaf t =>
          obtain ⟨hname, htail⟩ := Symbol.name_append_inj hrest hrest' h
          exact ⟨congrArg leaf hname, htail⟩
      | node g y => exact absurd h (leaf_render_ne s g y rest rest')
  | node f x =>
      cases b with
      | leaf t => exact absurd h.symm (leaf_render_ne t f x rest' rest)
      | node g y =>
          have htext : (node f x).head.name.toList ++ (argsText (node f x).args ++ ')' :: rest) =
              (node g y).head.name.toList ++ (argsText (node g y).args ++ ')' :: rest') := by
            simpa [toList_render_node] using h
          obtain ⟨hhead, htail⟩ := Symbol.name_append_inj (endsWord_argsText _ _)
            (endsWord_argsText _ _) htext
          obtain ⟨hargs, hrest⟩ := argsText_append_inj ih htail
          rw [eraseTypes_eq_spine, hhead, hargs, ← eraseTypes_eq_spine]
          exact ⟨rfl, hrest⟩

/-- Two trees have the same written form if and only if they differ in types alone. -/
theorem render_eq_iff (a b : Tree) : a.render = b.render ↔ a.eraseTypes = b.eraseTypes := by
  constructor
  · intro h
    have hnil : EndsWord [] := by
      intro c hc
      cases hc
    exact (a.readable b hnil hnil (by rw [h])).1
  · intro h
    rw [← a.render_eraseTypes, h, render_eraseTypes]

end Tree

end ExprTree
