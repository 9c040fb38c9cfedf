import StackVault.Service
import StackVault.Client

/-! A call of `request_encrypt_stack`: the client formats its request in a buffer of its own, the server takes it in one
    round, and the client prints what comes back. The connection delivers each of the two messages whole. -/

namespace StackVault

/-- The string that a buffer holds. -/
def Buffer.text (str : Buffer) : List Byte := str.bytes.takeWhile (· ≠ 0)

/-- The first `n` bytes of a buffer, as `send` passes them on. -/
def Buffer.sent (str : Buffer) (n : Nat) : Received := ⟨str.bytes.take n, by
  rw [List.length_take, str.size]
  exact Nat.min_le_right _ _⟩

/-- `sprintf`, which ends the text that it writes, and `send(s, str, strlen(str), 0)`. -/
def clientSend (str : Buffer) (pid topAddr bottomAddr : BitVec 64) : Except Fault (Buffer × Received) :=
  let text := requestText pid topAddr bottomAddr
  if h : text.length + 1 ≤ 100 then
    let str := str.recv ⟨text ++ [0], by rwa [List.length_append]⟩
    .ok (str, str.sent str.text.length)
  else .error .outOfBounds

/-- What follows the `recv` of the client: the string it prints, if it received anything; otherwise it exits. -/
def clientReceive (str : Buffer) (reply : Received) : Except Fault (Option (List Byte)) :=
  let t := reply.bytes.length
  if 0 < t then
    let str := str.recv reply
    if t < 100 then .ok (some (str.set t 0).text) else .error .outOfBounds
  else .ok none

/-- The arguments of a call, what its buffer happens to hold, and what the server's round meets beside the message. -/
structure Call where
  str : Buffer
  pid : BitVec 64
  topAddr : BitVec 64
  bottomAddr : BitVec 64
  visit : Visit

/-- The call: the server after it, and what the client has printed. A server that has left its loop closes the
    connection. `none` while the round has not ended within `fuel` tests. -/
def requestEncryptStack (fuel : Nat) (call : Call) (s : Machine) :
    Option (Except Fault (Machine × Option (List Byte))) :=
  match clientSend call.str call.pid call.topAddr call.bottomAddr with
  | .error f => some (.error f)
  | .ok (str, msg) =>
    (serveRound fuel { call.visit with received := some msg } s).map fun round => do
      let (s, replied) ← round
      let echo ← clientReceive str (s.str.sent (if replied then msg.bytes.length else 0))
      return (s, echo)

end StackVault
