import ExprTree.CommandLine
/-!
# The program

Runs the command line on the arguments of the process.
-/

namespace ExprTree.CommandLine

def systemReason : IO.Error → String
  | .noFileOrDirectory _ code details => details ++ " (os error " ++ toString code ++ ")"
  | .inappropriateType _ code details => details ++ " (os error " ++ toString code ++ ")"
  | .invalidArgument _ code details => details ++ " (os error " ++ toString code ++ ")"
  | .permissionDenied _ code details => details ++ " (os error " ++ toString code ++ ")"
  | .resourceExhausted _ code details => details ++ " (os error " ++ toString code ++ ")"
  | e => toString e

def Output.write (output : Output) : IO UInt32 := do
  IO.print output.stdout
  IO.eprint output.stderr
  return UInt32.ofNat output.exit

def Plan.perform : Plan → IO UInt32
  | .finish output => output.write
  | .save path contents => do
      let output ←
        try
          IO.FS.writeFile path contents
          pure saved
        catch e =>
          pure (notSaved path (systemReason e))
      output.write

end ExprTree.CommandLine

def main (args : List String) : IO UInt32 :=
  (ExprTree.CommandLine.plan ExprTree.ampleFuel args).perform
