import Rearrange.Answer
import Rearrange.Text.Lines

namespace Rearrange

/-- What a run leaves: the text it prints, the errors it reports, in order, and whether all went
well. -/
structure Batch where
  printed : String
  errors : List String
  success : Bool
deriving DecidableEq, Repr

namespace Batch

def failed (error : String) : Batch := ⟨"", [error], false⟩

def ofAnswers (answers : List (Except (Located Problem) String)) : Batch where
  printed := String.join (answers.filterMap fun
    | .ok text => some (text ++ "\n")
    | .error _ => none)
  errors := answers.filterMap fun
    | .ok _ => none
    | .error e => some e.cause.report.message
  success := answers.all fun
    | .ok _ => true
    | .error _ => false

def run (text : String) : Batch :=
  ofAnswers ((Text.lines text.toList).filter (!Text.isBlank ·)
    |>.map fun l => answer (String.ofList l))

end Batch

inductive Origin where
  | stdin
  | file (path : String)
deriving DecidableEq, Repr

inductive ReadFailure where
  | missing
  | notUtf8
  | other (reason : String)
deriving DecidableEq, Repr

def ReadFailure.text : ReadFailure → String
  | missing => "No such file or directory (os error 2)"
  | notUtf8 => "stream did not contain valid UTF-8"
  | other reason => reason

def Origin.complaint (origin : Origin) (failure : ReadFailure) : String :=
  match origin with
  | stdin => "could not read stdin: " ++ failure.text
  | file path => "could not read `" ++ path ++ "`: " ++ failure.text

def Batch.runBytes (origin : Origin) : Except ReadFailure ByteArray → Batch
  | .error failure => failed (origin.complaint failure)
  | .ok bytes =>
    match String.fromUTF8? bytes with
    | some text => run text
    | none => failed (origin.complaint .notUtf8)

end Rearrange
