import StackVault.Server
import StackVault.Lib.Decimal

/-! The request that `stack_encrypt_client.c` formats. -/

namespace StackVault

/-- The digits of a natural number. -/
def decimal (n : Nat) : List Byte := (Decimal.digits n).map fun d => ch '0' + BitVec.ofNat 8 d

/-- A number as `%d` and `%lld` print it. -/
def printSigned (v : Int) : List Byte := if v < 0 then ch '-' :: decimal v.natAbs else decimal v.natAbs

/-- `sprintf(str, "e f1 %d %lld %lld\n", pid, top_addr, bottom_addr)`: `%d` prints the low half of the
    argument, and both formats print signed numbers. -/
def requestText (pid topAddr bottomAddr : BitVec 64) : List Byte :=
  [ch 'e', ch ' ', ch 'f', ch '1', ch ' '] ++ printSigned (pid.setWidth 32).toInt ++ [ch ' '] ++
    printSigned topAddr.toInt ++
    [ch ' '] ++ printSigned bottomAddr.toInt ++ [ch '\n']

end StackVault
