/-
The subscriber record `sub_client` of `protocol/subcli.h` and the limits of `constant.h`.

Besides the fields of the source the record carries what the runs are observed by and no function
branches on: the bytes of the requests that were rejected, the stores that missed `argv`, the bytes
appended to the write buffer and those the socket took, and the fate of the record itself (released,
accessed afterwards, descriptor closed).
-/
import PubsubBroker.Common.Util

namespace PubsubBroker

/-! ## Limits -/

def PUB_READ_BUF_LEN : Nat := 1024 * 16
def SUB_READ_BUF_LEN : Nat := 1024 * 16
def SUB_WRITE_BUF_LEN : Nat := 1024 * 16
def MAX_INLINE_READ : Nat := 1024 * 16
def MAX_BULK_LEN : Nat := 1024 * 16

/-- `SUBCLI_OK` and `SUBCLI_ERR`. -/
inductive Status
  | ok
  | err
  deriving DecidableEq, Repr

/-! ## Parts of the record -/

/-- The flags of a libevent event. -/
structure Events where
  read : Bool
  write : Bool
  persist : Bool
  deriving DecidableEq, Repr

/-- The array most recently allocated for `c->argv`: its number of slots, and what was stored at
each index since, an index outside the slots included. -/
structure Argv where
  slots : Nat
  cells : Int → Option Sds

/-- A fresh array of `n` slots. -/
def Argv.alloc (n : Nat) : Argv := ⟨n, fun _ => none⟩

/-- The filled part of `c->wbuf`, `wbufpos` bytes of `SUB_WRITE_BUF_LEN`. -/
structure WriteBuf where
  bytes : List UInt8
  fits : bytes.length ≤ SUB_WRITE_BUF_LEN
  deriving DecidableEq

namespace WriteBuf

def empty : WriteBuf := ⟨[], Nat.zero_le _⟩

/-- The space left: `sizeof(c->wbuf) - c->wbufpos`. -/
def available (w : WriteBuf) : Nat := SUB_WRITE_BUF_LEN - w.bytes.length

/-- Appends a string that fits. -/
def append (w : WriteBuf) (s : List UInt8) (h : s.length ≤ w.available) : WriteBuf :=
  ⟨w.bytes ++ s, by have := w.fits; unfold available at h; rw [List.length_append]; omega⟩

@[simp] theorem bytes_empty : empty.bytes = [] := rfl

@[simp] theorem bytes_append (w : WriteBuf) (s : List UInt8) (h : s.length ≤ w.available) :
    (w.append s h).bytes = w.bytes ++ s := rfl

@[simp] theorem available_append (w : WriteBuf) (s : List UInt8) (h : s.length ≤ w.available) :
    (w.append s h).available = w.available - s.length := by
  unfold available
  rw [bytes_append, List.length_append]
  omega

end WriteBuf

/-! ## The record -/

structure SubClient where
  fd : Nat
  id : Sds
  /-- The flags of `c->ev`. -/
  ev : Events
  /-- Whether `c->ev` is registered with the event loop. -/
  added : Bool
  readBuf : Sds
  wbuf : WriteBuf
  reqType : Int
  multiBulkLen : Nat
  bulkLen : Int
  argc : Int
  argv : Argv
  /-- For each call of `set_protocol_err`, the newest first, the buffer from the rejected bytes on. -/
  rejected : List Sds
  /-- The indices outside the slots of `argv` that an argument was stored at, the newest first. What such a store hits
  is not part of the record. -/
  strays : List Int
  /-- Calls of `event_new` made for this client. -/
  regs : Nat
  /-- Every byte ever appended to `wbuf`. -/
  appended : List UInt8
  /-- Every byte the socket has accepted. -/
  sent : List UInt8
  /-- Created and not yet freed. -/
  live : Bool
  /-- Accessed after it was freed. -/
  touched : Bool
  /-- Calls of `close` on `fd`. -/
  closed : Nat

/-- What `malloc` leaves in the fields that `sub_cli_create` does not assign. -/
structure Junk where
  reqType : Int
  argc : Int
  argv : Argv

/-- `sub_cli_create(fd, inc_counter)`, with the id already made. -/
def subCliCreate (junk : Junk) (fd : Nat) (id : Sds) : SubClient where
  fd := fd
  id := id
  ev := ⟨false, false, false⟩
  added := false
  readBuf := []
  wbuf := .empty
  reqType := junk.reqType
  multiBulkLen := 0
  bulkLen := -1
  argc := junk.argc
  argv := junk.argv
  rejected := []
  strays := []
  regs := 0
  appended := []
  sent := []
  live := true
  touched := false
  closed := 0

/-- A client in memory that `malloc` happened to return zeroed. -/
def zeroedClient (fd : Nat) (id : Sds) : SubClient := subCliCreate ⟨0, 0, .alloc 0⟩ fd id

namespace SubClient

/-- No request is under way: nothing is parsed and no argument is held. -/
structure Idle (c : SubClient) : Prop where
  argc : c.argc = 0
  multiBulkLen : c.multiBulkLen = 0
  bulkLen : c.bulkLen = -1

/-- The arguments a command or `free_client_argv` reads: `c->argv[0]` to `c->argv[argc - 1]`, `none`
for a slot that was never written. -/
def args (c : SubClient) : List (Option Sds) := (List.range c.argc.toNat).map fun i : Nat => c.argv.cells (i : Int)

/-- `c->argv[c->argc++] = arg` -/
def pushArg (c : SubClient) (arg : Sds) : SubClient :=
  { c with
    argv := { c.argv with cells := fun i => if i = c.argc then some arg else c.argv.cells i }
    strays := if 0 ≤ c.argc ∧ c.argc < c.argv.slots then c.strays else c.argc :: c.strays
    argc := c.argc + 1 }

/-- The arguments pushed one after the other. -/
def pushArgs (c : SubClient) (args : List Sds) : SubClient := args.foldl pushArg c

end SubClient

end PubsubBroker
