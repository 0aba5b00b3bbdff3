import Pifus.Constants

/-!
# Operations and results

The codes of `pifus_operation.h`. The order of the operation codes matters in
one place: `is_tcp_operation` is a comparison with `UDP_BIND`.
-/

/-- `enum pifus_operation_code`. -/
inductive PifusOperationCode
  | tcpBind | tcpListen | tcpAccept | tcpConnect | tcpWrite | tcpRecv
  | tcpClose | tcpAbort
  | udpBind | udpConnect | udpDisconnect | udpSend | udpRecv
  | connectionLost | clientNop | nop
  deriving DecidableEq, Repr

namespace PifusOperationCode

/-- The number of a code, from `OPERATIONS`. -/
def toNat : PifusOperationCode → ℕ
  | tcpBind => 0
  | tcpListen => 1
  | tcpAccept => 2
  | tcpConnect => 3
  | tcpWrite => 4
  | tcpRecv => 5
  | tcpClose => 6
  | tcpAbort => 7
  | udpBind => 100
  | udpConnect => 101
  | udpDisconnect => 102
  | udpSend => 103
  | udpRecv => 104
  | connectionLost => 200
  | clientNop => 254
  | nop => 255

/-- `is_tcp_operation`. -/
def isTcpOperation (code : PifusOperationCode) : Bool :=
  code.toNat < udpBind.toNat

end PifusOperationCode

/-- `enum pifus_result_code`. -/
inductive PifusResultCode
  | ok | err | async | tryAgain
  deriving DecidableEq, Repr

/-- `struct pifus_operation_result`. The data depends on the operation, and no
queue looks at it. -/
structure PifusOperationResult (δ : Type*) where
  code : PifusOperationCode
  resultCode : PifusResultCode
  data : δ
  deriving DecidableEq
