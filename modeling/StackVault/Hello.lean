import StackVault.Types

/-! The LLVM pass of `Hello.cpp`. It runs on one function after another, and where a function calls `multi`
    directly it inserts two instructions behind the call, into the list that its loop is walking over. The
    callee to insert is the function named `invoke`, kept in a field of the pass once the pass has come to it.
    Names hold no NUL byte, so `strcmp` compares them as they are. -/

namespace StackVault.Hello

/-- The called operand of a call instruction: a function of the module, an inline assembly or another value. -/
inductive Called where
  | function (name : String)
  | inlineAsm (text : String)
  | value (id : Nat)
  deriving DecidableEq, Repr

/-- An operand: an integer constant, the address of a constant string, or another value. -/
inductive Operand where
  | constInt (width value : Nat)
  | constString (text : String)
  | value (id : Nat)
  deriving DecidableEq, Repr

/-- An instruction. The opcode name is `call` for a call instruction and for no other. -/
inductive Instruction where
  | call (called : Called) (args : List Operand)
  | other (opcode : String) (operands : List Operand)
  deriving DecidableEq, Repr

/-- A function with its instructions, block after block. -/
structure Function where
  name : String
  body : List Instruction

/-- An instruction as it stands in a function. `inserted` marks those of the pass; no branch reads it. -/
structure Placed where
  inst : Instruction
  inserted : Bool
  deriving DecidableEq, Repr

/-- `getCalledFunction`: NULL unless the called operand is a function. -/
def Called.function? : Called → Option String
  | .function name => some name
  | .inlineAsm _ => none
  | .value _ => none

/-- The instruction passes the two tests of the loop: it is a call, and the function it calls is `multi`. -/
def Instruction.CallsMulti : Instruction → Prop
  | .call called _ => called.function? = some "multi"
  | .other _ _ => False

instance : DecidablePred Instruction.CallsMulti
  | .call called _ => inferInstanceAs (Decidable (called.function? = some "multi"))
  | .other _ _ => inferInstanceAs (Decidable False)

/-- `asmi`. -/
def syscall : Placed := ⟨.call (.inlineAsm "syscall") [.constInt 32 316, .constInt 64 0x56465f0], true⟩

/-- `ci`. -/
def callInsertFunc (insertFunc : String) : Placed := ⟨.call (.function insertFunc) [.constString "hahaha"], true⟩

/-- The loop over the instructions, from the iterator on. It comes to the inserted instructions as well. A call is
    made for `insert_func` without a test, and making one for a null pointer follows it. `none` when the loop
    has not ended within `fuel` tests of its condition. -/
def visit (insertFunc : Option String) : Nat → List Placed → Option (Except Fault (List Placed))
  | 0, _ => none
  | _ + 1, [] => some (.ok [])
  | fuel + 1, I :: rest =>
    if I.inst.CallsMulti then
      match insertFunc with
      | none => some (.error .nullDeref)
      | some f => (visit insertFunc fuel (syscall :: callInsertFunc f :: rest)).map fun r => r.map (I :: ·)
    else (visit insertFunc fuel rest).map fun r => r.map (I :: ·)

/-- `runOnFunction`: the field `insert_func` afterwards, and the instructions. -/
def runOnFunction (fuel : Nat) (insertFunc : Option String) (F : Function) :
    Option (Except Fault (Option String × List Placed)) :=
  let insertFunc := if insertFunc = none ∧ F.name = "invoke" then some F.name else insertFunc
  (visit insertFunc fuel (F.body.map fun inst => ⟨inst, false⟩)).map fun r => r.map fun body => (insertFunc, body)

/-- The pass on the functions of a module that are left, in their order. -/
def runOnModule (fuel : Nat) : Option String → List Function → Option (Except Fault (List (List Placed)))
  | _, [] => some (.ok [])
  | insertFunc, F :: rest =>
    match runOnFunction fuel insertFunc F with
    | none => none
    | some (.error e) => some (.error e)
    | some (.ok (insertFunc, body)) => (runOnModule fuel insertFunc rest).map fun r => r.map (body :: ·)

end StackVault.Hello
