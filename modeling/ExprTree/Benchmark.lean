import ExprTree.Draws.Permuted
import ExprTree.Generation
import ExprTree.Notice
import ExprTree.Passes
import ExprTree.Text.Json
import ExprTree.Tree.Rendering
/-!
# Benchmark

The passes are run on generated trees, and each result is checked: it has to
evaluate to the same value as the tree it was made from, or to fail alike. The
report lists what the passes did to each tree.
-/

namespace ExprTree

/-- A tree that the passes gave another meaning, in writing. -/
structure Mismatch where
  index : Nat
  before : String
  after : String
  expected : String
  found : String

inductive BenchError where
  | mismatch (m : Mismatch)
  | notWritten (path reason : String)
  /-- A pass or the generator broke off. -/
  | fault (fault : Fault)

namespace BenchError

def message : BenchError → String
  | mismatch m => "tree " ++ toString m.index ++ " changed its meaning"
  | notWritten path reason => "could not write report to " ++ path ++ ": " ++ reason
  | fault f => f.message

def notice : BenchError → Notice
  | mismatch m =>
      { title := "Semantic Mismatch"
        message := some <| String.intercalate "\n"
          ["Tree " ++ toString m.index ++ " evaluates to " ++ m.expected
              ++ " before transformation but to " ++ m.found ++ " after it.",
            "",
            "Original:",
            "  " ++ m.before,
            "",
            "Transformed:",
            "  " ++ m.after] }
  | e => { title := "Report Failed", message := some e.message }

def exitStatus : BenchError → Nat
  | mismatch _ => 1
  | notWritten _ _ => 1
  | fault _ => 101

end BenchError

def resultText : Except EvalError Value → String
  | .ok v => v.text
  | .error e => "an error (" ++ e.message ++ ")"

def compareMeanings (fuel index : Nat) (env : Env) (before after : Tree) :
    StateT Heap Option (Option Mismatch) := do
  let expected ← (eval fuel before env).run
  let found ← (eval fuel after env).run
  if sameResult found expected then
    return none
  else
    return some
      { index
        before := before.render
        after := after.render
        expected := resultText expected
        found := resultText found }

structure BenchConfig where
  seed : Nat
  trees : Nat
  depth : Nat
  freeVars : Nat
  passes : PassChoice

structure TreeSummary where
  index : Nat
  size : Nat
  passes : List PassSummary

structure BenchSummary where
  seed : Nat
  depth : Nat
  freeVars : Nat
  trees : List TreeSummary

def benchTree (fuel : Nat) (choice : PassChoice) (env : Env) (index : Nat) (t : Tree) :
    Except BenchError TreeSummary := do
  let (after, passes) ←
    (t.transform (.standard fuel) choice).mapError BenchError.fault
  match (compareMeanings fuel index env t after).run' .empty with
  | none => .error (.fault .outOfFuel)
  | some (some m) => .error (.mismatch m)
  | some none => return ⟨index, t.size, passes⟩

/-- Generate `n` trees, numbered from `index` on, and run the passes on each of them. -/
def benchFrom {σ : Type} (src : Source σ) (fuel depth : Nat) (choice : PassChoice) (env : Env) :
    (n index : Nat) → Generator σ → Except BenchError (List TreeSummary)
  | 0, _, _ => return []
  | n + 1, index, g => do
      let (t, g) ← (g.intTree src depth).mapError BenchError.fault
      let entry ← benchTree fuel choice env index t
      let rest ← benchFrom src fuel depth choice env n (index + 1) g
      return entry :: rest

def bench (fuel : Nat) (config : BenchConfig) : Except BenchError BenchSummary := do
  let g := Generator.new (Permuted.ofSeed (BitVec.ofNat 64 config.seed)) config.freeVars
  let trees ←
    benchFrom Permuted.source fuel config.depth config.passes g.env config.trees 0 g
  return ⟨config.seed, config.depth, config.freeVars, trees⟩

/-! ## The report in writing -/

open Text

/-- What a pass did. No time is measured. -/
def PassSummary.json (r : PassSummary) : List String :=
  Json.object
    [("pass", Json.plain r.pass.name),
      ("size_before", Json.number r.sizeBefore),
      ("size_after", Json.number r.sizeAfter),
      ("rewrites", Json.number r.changes),
      ("nanoseconds", Json.number 0)]

def TreeSummary.json (e : TreeSummary) : List String :=
  Json.object
    [("index", Json.number e.index),
      ("size", Json.number e.size),
      ("passes", Json.array (e.passes.map PassSummary.json))]

def BenchSummary.json (r : BenchSummary) : String :=
  Json.text <| Json.object
    [("seed", Json.number r.seed),
      ("depth", Json.number r.depth),
      ("free_vars", Json.number r.freeVars),
      ("trees", Json.array (r.trees.map TreeSummary.json))]

end ExprTree
