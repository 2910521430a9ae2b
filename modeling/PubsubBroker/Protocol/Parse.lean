/-
The request parsers of `protocol/subcli.c` and the loop that drives them. A parser maps the client
to its status and the client it leaves; a line of the source that trims `read_buf` is a call of
`sdsrange` here.
-/
import PubsubBroker.Protocol.SubClient

namespace PubsubBroker

open CLang

/-! ## Multibulk requests -/

/-- `set_protocol_err(c, pos)` -/
def setProtocolErr (c : SubClient) (pos : Nat) : SubClient :=
  { c with readBuf := sdsrange c.readBuf pos (-1), rejected := c.readBuf.drop pos :: c.rejected }

/-- What the count line of a request or the length line of a bulk turns out to be. -/
inductive Header
  /-- `set_protocol_err` at an offset, and `SUBCLI_ERR` -/
  | reject (pos : Nat)
  /-- The line is not complete. -/
  | wait
  /-- The number on the line, and the offset behind the line. -/
  | length (ll : Int) (pos : Nat)
  deriving DecidableEq, Repr

/-- `(signed)sdslen(c->read_buf)-2`, where the difference is taken to wrap: the last offset at which a
carriage return has a byte behind it. -/
def crLimit (buf : Sds) : Int := toInt (toInt buf.length - 2)

theorem crLimit_of_lt {buf : Sds} (h : buf.length < 2 ^ 31 + 2) : crLimit buf = buf.length - 2 := by
  unfold crLimit toInt; omega

theorem crLimit_le (buf : Sds) : crLimit buf ≤ buf.length - 2 := by
  unfold crLimit toInt; omega

theorem crLimit_of_long {buf : Sds} (h : 2 ^ 31 + 2 ≤ buf.length) (h' : buf.length < 2 ^ 32) : crLimit buf < 0 := by
  unfold crLimit toInt; omega

/-- The part of `process_multibulk_buffer` that reads the multibulk length. -/
def readMultibulkLen (buf : Sds) : Header :=
  match strchr CR buf with
  | none => if buf.length > MAX_INLINE_READ then .reject 0 else .wait
  | some newline =>
    if (newline : Int) > crLimit buf then .wait
    else
      match string2ll ((buf.drop 1).take (newline - 1)) with
      | none => .reject 0
      | some ll => if ll > SUB_READ_BUF_LEN then .reject 0 else .length ll (newline + 2)

/-- The part of `process_multibulk_buffer` that reads a bulk length, at `pos`. -/
def readBulkLen (buf : Sds) (pos : Nat) : Header :=
  match strchr CR (buf.drop pos) with
  | none => if buf.length > MAX_INLINE_READ then .reject 0 else .wait
  | some k =>
    let newline := pos + k
    if (newline : Int) > crLimit buf then .wait
    else if (buf.drop pos).head? ≠ some 36 then .reject pos
    else
      match string2ll ((buf.drop (pos + 1)).take (newline - (pos + 1))) with
      | none => .reject pos
      | some ll => if ll < 0 ∨ ll > MAX_BULK_LEN then .reject pos else .length ll (newline + 2)

/-- The trim at the end of `process_multibulk_buffer`: `if (pos) sdsrange(c->read_buf, pos, -1)`. -/
def trimTo (c : SubClient) (pos : Nat) : SubClient :=
  if pos ≠ 0 then { c with readBuf := sdsrange c.readBuf pos (-1) } else c

/-- `while (c->multi_bulk_len)`, by recursion on that counter, and what follows the loop. -/
def multibulkLoop : Nat → Nat → SubClient → Status × SubClient
  | 0, pos, c => (.ok, trimTo c pos)
  | n + 1, pos, c =>
    match (if c.bulkLen = -1 then readBulkLen c.readBuf pos else .length c.bulkLen pos) with
    | .reject p => (.err, setProtocolErr c p)
    | .wait => (.err, trimTo c pos)
    | .length ll pos =>
      let c := { c with bulkLen := ll }
      if c.readBuf.length - pos < toUInt (ll + 2) then (.err, trimTo c pos)
      else
        multibulkLoop n (pos + (ll + 2).toNat)
          { c.pushArg ((c.readBuf.drop pos).take ll.toNat) with bulkLen := -1, multiBulkLen := n }

/-- `process_multibulk_buffer(c)` -/
def processMultibulkBuffer (c : SubClient) : Status × SubClient :=
  if c.multiBulkLen = 0 then
    match readMultibulkLen c.readBuf with
    | .reject p => (.err, setProtocolErr c p)
    | .wait => (.err, c)
    | .length ll pos =>
      if ll ≤ 0 then (.ok, { c with readBuf := sdsrange c.readBuf pos (-1) })
      else multibulkLoop ll.toNat pos { c with multiBulkLen := ll.toNat, argv := .alloc ll.toNat }
  else multibulkLoop c.multiBulkLen 0 c

/-! ## Inline requests -/

/-- The loop of `process_inline_buffer` that copies the tokens of the line: empty ones are dropped,
the others are copied up to their first NUL. -/
def copyTokens (c : SubClient) (tokens : List Sds) : SubClient :=
  tokens.foldl (fun c token => if token.length ≠ 0 then c.pushArg (cstr token) else c) c

/-- The end of the line that a newline at `nl` closes: a carriage return before it is not part of
the line. -/
def lineEnd (buf : Sds) (nl : Nat) : Nat := if nl ≠ 0 ∧ buf[nl - 1]? = some CR then nl - 1 else nl

/-- What the line at the start of the buffer turns out to be. -/
inductive InlineLine
  /-- `set_protocol_err` at the start of the buffer, and `SUBCLI_ERR` -/
  | reject
  /-- The line is not complete. -/
  | wait
  /-- The tokens of the line, and its length. -/
  | tokens (argv : List Sds) (querylen : Nat)
  deriving DecidableEq, Repr

/-- The part of `process_inline_buffer` that finds the line and splits it. -/
def readLine (buf : Sds) : InlineLine :=
  match strchr LF buf with
  | none => if buf.length > SUB_READ_BUF_LEN then .reject else .wait
  | some nl =>
    let querylen := lineEnd buf nl
    match sdssplitargs (buf.take querylen) with
    | none => .reject
    | some argv => .tokens argv querylen

/-- `process_inline_buffer(c)` -/
def processInlineBuffer (c : SubClient) : Status × SubClient :=
  match readLine c.readBuf with
  | .reject => (.err, setProtocolErr c 0)
  | .wait => (.err, c)
  | .tokens argv querylen =>
    (.ok, copyTokens
      { c with
        readBuf := sdsrange c.readBuf (toInt (querylen + 2 : Nat)) (-1)
        argv := .alloc argv.length
        argc := 0 } argv)

/-! ## The driver loop -/

/-- `free_client_argv(c)` -/
def freeClientArgv (c : SubClient) : SubClient :=
  { c with argc := 0, argv := if c.argc > 0 then .alloc 0 else c.argv }

/-- `reset_client(c)` -/
def resetClient (c : SubClient) : SubClient :=
  { freeClientArgv c with reqType := 0, multiBulkLen := 0, bulkLen := -1 }

def REQ_INLINE : Int := 1
def REQ_MULTIBULK : Int := 2

/-- The request type is guessed anew from the first byte in the buffer. -/
def guessReqType (c : SubClient) : SubClient :=
  { c with reqType := if c.readBuf.head? = some 42 then REQ_MULTIBULK else REQ_INLINE }

/-- One pass of the loop in `process_sub_read_buf`: guess the type and call its parser. -/
def processRequest (c : SubClient) : Status × SubClient :=
  let c := guessReqType c
  if c.reqType = REQ_INLINE then processInlineBuffer c else processMultibulkBuffer c

/-- The loop of `process_sub_read_buf`: `none` when the fuel is used up before the buffer is. A
parser that returns `SUBCLI_OK` on a buffer shorter than `2 ^ 31 - 1` takes at least one byte, so
there the length of the buffer is fuel enough (`parseLoop_isSome`). -/
def parseLoop : Nat → SubClient → Option SubClient
  | 0, c => if c.readBuf.length = 0 then some c else none
  | fuel + 1, c =>
    if c.readBuf.length = 0 then some c
    else
      match processRequest c with
      | (.ok, c) => parseLoop fuel c
      | (.err, c) => some c

/-- The arguments of a command: `none` for a slot that was never written. -/
abbrev Command := List (Option Sds)

/-- What `process_sub_read_buf` does after its loop: the client it leaves and the arguments that
`process_command` executes, if any. What the command does to the broker is `processCommand`. -/
def finishRead (c : SubClient) : SubClient × Option Command :=
  if c.argc = 0 then (freeClientArgv c, none) else (resetClient c, some c.args)

/-- `process_sub_read_buf(c)` as far as the request state goes, `none` when it does not return. -/
def processSubReadBuf (c : SubClient) : Option (SubClient × Option Command) :=
  (parseLoop c.readBuf.length c).map finishRead

/-- `sub_ev_handler` when `read` returns `chunk`. -/
def subRead (c : SubClient) (chunk : List UInt8) : Option (SubClient × Option Command) :=
  processSubReadBuf { c with readBuf := c.readBuf ++ chunk }

/-- Reads one after the other: the client in the end and the commands executed, in order. -/
def feed (c : SubClient) : List (List UInt8) → Option (SubClient × List Command)
  | [] => some (c, [])
  | chunk :: chunks =>
    match subRead c chunk with
    | none => none
    | some (c, cmd) => (feed c chunks).map fun r => (r.1, cmd.toList ++ r.2)

end PubsubBroker
