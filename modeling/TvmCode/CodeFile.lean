import TvmCode.BagOfCells.Basic
import TvmCode.Text.Quoted

/-!
# Code files

A code file holds a bag of cells whose first root is the initial state of a contract; the first reference of that root
is the contract's code.
-/

namespace TvmCode.CodeFile

/-- Why a file gives no code. -/
inductive LoadError where
  | missing (path : String)
  | notBag (e : BagError)
  | noCode

/-- The wording of a refusal. -/
def LoadError.message : LoadError → String
  | .missing path => "failed to read tvc file: [Errno 2] No such file or directory: " ++ Text.quote path
  | .notBag e => "failed to deserialize the tvc: " ++ e.message
  | .noCode => "the tvc root cell has no code reference"

/-- The code cell of a file with the given contents, or none if it does not exist, and what was reported on the way.
-/
def load (path : String) (file : Option (List UInt8)) : Except LoadError Cell × List Note :=
  match file with
  | none => (.error (.missing path), [])
  | some bytes =>
    match BagOfCells.contents bytes with
    | .error e => (.error (.notBag e), [])
    | .ok c =>
      match c.roots with
      | ⟨_, _, code :: _, _⟩ :: _ => (.ok code, BagOfCells.notes c)
      | _ => (.error .noCode, BagOfCells.notes c)

end TvmCode.CodeFile
