import Mathlib.Data.List.Infix

/-! The call-graph analysis of `parser.py`: from the functions that are named as sensitive and untrusted,
    it finds more untrusted ones. What networkx finds in a graph is an argument of the model: `all_simple_paths` gives
    the paths from one node to another, in some order. After it comes the scan of the disassembly for the
    headers of the sensitive functions. -/

namespace StackVault

section Parser
variable {ν : Type} [DecidableEq ν]

/-- The label that the call graph has for a function. -/
def funcStr (func : String) : String := "\x7b" ++ func ++ "\x7d"

/-- The nodes of the functions named, by the first label that is theirs. A function without a node is left out. -/
def funcIdList (labels : List (ν × String)) (funcList : List String) : List ν :=
  funcList.filterMap fun func => (labels.find? fun label => label.2 = funcStr func).map Prod.fst

/-- The loop over a path: a node that follows a sensitive one becomes untrusted. -/
def scanPath (sensitive : List ν) : List ν → List ν → List ν
  | a :: b :: path, untrusted =>
    scanPath sensitive (b :: path) (if a ∈ sensitive ∧ b ∉ untrusted then untrusted ++ [b] else untrusted)
  | _, untrusted => untrusted

/-- The loop over `untrusted_func_id_list` from position `i` on, while it grows: `none` when it has not come to
    the end of the list within `fuel` looks at it. -/
def scanUntrusted (allSimplePaths : ν → ν → List (List ν)) (sensitive : List ν) (source : ν) :
    Nat → Nat → List ν → Option (List ν)
  | 0, _, _ => none
  | fuel + 1, i, untrusted => match untrusted[i]? with
    | none => some untrusted
    | some target => scanUntrusted allSimplePaths sensitive source fuel (i + 1)
        ((allSimplePaths source target).foldl (fun untrusted path => scanPath sensitive path untrusted) untrusted)

/-- The loop over the sensitive functions that are left. -/
def scanSensitive (allSimplePaths : ν → ν → List (List ν)) (sensitive : List ν) (fuel : Nat) :
    List ν → List ν → Option (List ν)
  | [], untrusted => some untrusted
  | source :: sources, untrusted =>
    (scanUntrusted allSimplePaths sensitive source fuel 0 untrusted).bind
      (scanSensitive allSimplePaths sensitive fuel sources)

/-- `untrusted_func_id_list` after the analysis. -/
def analyse (allSimplePaths : ν → ν → List (List ν)) (labels : List (ν × String))
    (sensitiveFuncList untrustedFuncList : List String) (fuel : Nat) : Option (List ν) :=
  scanSensitive allSimplePaths (funcIdList labels sensitiveFuncList) fuel (funcIdList labels sensitiveFuncList)
    (funcIdList labels untrustedFuncList)

end Parser

/-! ### The scan of `objdump.txt` -/

/-- The header of a function in the disassembly. -/
def funcHeader (sensitiveFunc : String) : String := "<" ++ sensitiveFunc ++ ">:"

/-- The header is in line `idx`. -/
def Hits (content : List String) (idx : Nat) (sensitiveFunc : String) : Prop :=
  ∃ line ∈ content[idx]?, (funcHeader sensitiveFunc).toList <:+: line.toList

instance (content : List String) (idx : Nat) (sensitiveFunc : String) : Decidable (Hits content idx sensitiveFunc) :=
  inferInstanceAs (Decidable (∃ line ∈ content[idx]?, _))

/-- What is printed for a function: the line `content[idx]`. -/
structure Printed where
  sensitiveFunc : String
  idx : Nat
  line : String
  deriving DecidableEq, Repr

/-- `content[idx]` with `idx` past the last line. It ends the script. -/
structure IndexError where
  idx : Nat
  deriving DecidableEq, Repr

/-- The loop over the functions that are left, from line `idx` on: what it prints, and the line it ends at.
    A function that is found moves the loop on by three lines, for the functions after it as well. -/
def scanFuncs (content : List String) : List String → Nat → Except IndexError (List Printed × Nat)
  | [], idx => .ok ([], idx)
  | sensitiveFunc :: rest, idx =>
    if content.length ≤ idx then .error ⟨idx⟩
    else if Hits content idx sensitiveFunc then
      match content[idx + 3]? with
      | none => .error ⟨idx + 3⟩
      | some line =>
          (scanFuncs content rest (idx + 3)).map fun (out, idx') => (⟨sensitiveFunc, idx + 3, line⟩ :: out, idx')
    else scanFuncs content rest idx

/-- The loop over the lines: `none` when it has not come past the last line within `fuel` tests of it. -/
def scanObjdump (content sensitiveFuncList : List String) : Nat → Nat → Option (Except IndexError (List Printed))
  | 0, _ => none
  | fuel + 1, idx =>
    if idx < content.length then
      match scanFuncs content sensitiveFuncList idx with
      | .error e => some (.error e)
      | .ok (out, idx') => (scanObjdump content sensitiveFuncList fuel (idx' + 1)).map fun r => r.map (out ++ ·)
    else some (.ok [])

end StackVault
