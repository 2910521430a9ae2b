/-
The server of `broker.h` and what its event handlers do to it: accepting a subscriber, executing a
command, publishing a message, releasing a subscriber and sending to one. Clients are kept in the order
of their creation and a pointer to a client is its place in that order, so it stays valid as a pointer
when the client is freed: the address of a released client is not given out again.

The libraries are parameters: the trie `T`, the converter `conv` and the outcome `reg r n` of the `n`-th
event registration made for the client at `r`. The event `command` stands for the read of a request
(`subEvRead_request`).
-/
import PubsubBroker.Common.TrieUtil
import PubsubBroker.Lib.Run
import PubsubBroker.Lib.Table
import PubsubBroker.Protocol.Flush
import PubsubBroker.Protocol.Framing

namespace PubsubBroker

open CLang

/-! ## State -/

/-- A reply made to a client: the pointer, the record as it was then, and the pieces of the reply. -/
structure ReplyCall where
  client : Nat
  before : SubClient
  pieces : List Sds

/-- The topics of the server. -/
structure Topics (T : Datrie) where
  /-- From topics to the client sets, which go from client ids to clients. -/
  subscibeTable : Table (Table Nat)
  subTrie : T.Trie

structure Broker (T : Datrie) extends Topics T where
  /-- From client ids to clients. -/
  subcliTable : Table Nat
  subIncCounter : Int
  /-- Every client ever created. -/
  subClis : List SubClient
  /-- The calls of `single_chan_publish`: message and channel. -/
  published : List (Sds × Sds)
  /-- The replies made so far. -/
  replies : List ReplyCall

/-- A `pub_client`. -/
structure PubClient where
  fd : Nat
  readBuf : Sds

namespace Broker

variable {T : Datrie}

/-- The server after `server_init`, with the counter that `server_config_init` has drawn. -/
def init (T : Datrie) (counter : Int) : Broker T where
  subscibeTable := .empty
  subTrie := T.create
  subcliTable := .empty
  subIncCounter := counter
  subClis := []
  published := []
  replies := []

/-- The client at `r` exists and is not freed. -/
def Live (b : Broker T) (r : Nat) : Prop := ∃ c, b.subClis[r]? = some c ∧ c.live = true

instance (b : Broker T) (r : Nat) : Decidable (b.Live r) :=
  decidable_of_iff ((b.subClis[r]?.map SubClient.live) = some true) (by unfold Live; simp [Option.map_eq_some_iff])

/-- The record at `r` is overwritten. -/
def update (b : Broker T) (r : Nat) (f : SubClient → SubClient) : Broker T := { b with subClis := b.subClis.modify r f }

theorem getElem?_update {b : Broker T} {r : Nat} {c : SubClient} (hc : b.subClis[r]? = some c)
    (f : SubClient → SubClient) : (b.update r f).subClis[r]? = some (f c) := by
  rw [update, List.getElem?_modify_eq, hc]
  rfl

end Broker

section
variable {T : Datrie} (conv : Iconv) (reg : Nat → Nat → RegOutcome)

/-- A reply to the client at `r`. -/
def reply (b : Broker T) (r : Nat) (pieces : List Sds) : Broker T :=
  match b.subClis[r]? with
  | none => b
  | some c =>
    { b with
      subClis := b.subClis.set r (addPieces (reg r) c pieces)
      replies := b.replies ++ [⟨r, c, pieces⟩] }

@[simp] theorem reply_toTopics (b : Broker T) (r : Nat) (ps : List Sds) :
    (reply reg b r ps).toTopics = b.toTopics := by
  unfold reply; split <;> rfl

@[simp] theorem reply_subcliTable (b : Broker T) (r : Nat) (ps : List Sds) :
    (reply reg b r ps).subcliTable = b.subcliTable := by
  unfold reply; split <;> rfl

@[simp] theorem reply_length (b : Broker T) (r : Nat) (ps : List Sds) :
    (reply reg b r ps).subClis.length = b.subClis.length := by
  unfold reply; split <;> simp

/-- `add_reply_bulk(c, cnt)` -/
def addReplyBulk (b : Broker T) (r : Nat) (cnt : Sds) : Broker T := reply reg b r (bulkPieces cnt)

/-- `add_reply_error_fmt(c, fmt, ...)`, for the text it formats. -/
def addReplyErrorFmt (b : Broker T) (r : Nat) (text : Sds) : Broker T := reply reg b r (errorPieces text)

/-! ## Commands -/

/-- The trie key that `subscribe_channel` makes of a topic: what `conv_to_alpha` writes, up to the
terminator. -/
def chanAlpha (channel : Sds) : List AlphaChar :=
  (convToAlpha conv channel (channel.length + 1)).takeWhile (· ≠ 0)

/-- `subscribe_channel(c, channel)` for the client at `r` with the id `id`. -/
def subscribeChannel (t : Topics T) (r : Nat) (id channel : Sds) : Status × Topics T :=
  -- a known topic: the caller is not put into its client set
  if T.retrieve t.subTrie (chanAlpha conv channel) then (.ok, t)
  else
    match T.store t.subTrie (chanAlpha conv channel) with
    | none => (.err, t)
    | some trie =>
      let t := { t with subTrie := trie }
      let hs := (Table.empty.insert id r).getD Table.empty
      match t.subscibeTable.insert channel hs with
      -- the key stays in the trie
      | none => (.err, t)
      | some table => (.ok, { t with subscibeTable := table })

/-- The procedures of the commands. -/
inductive SubCommandProc
  | ping
  | subscribe
  | unsubscribe
  deriving DecidableEq, Repr

structure SubCommand where
  name : Sds
  proc : SubCommandProc
  arity : Int

/-- `sub_command_table` -/
def subCommandTable : List SubCommand :=
  [⟨ascii "ping", .ping, 1⟩, ⟨ascii "subscribe", .subscribe, -2⟩, ⟨ascii "unsubscribe", .unsubscribe, -1⟩]

/-- `ping_command(c)` -/
def pingCommand (b : Broker T) (r : Nat) : Broker T := reply reg b r pongPieces

/-- The loop of `subscribe_command` over the topics. -/
def subscribeChannels (t : Topics T) (r : Nat) (id : Sds) (topics : List Sds) : Topics T :=
  topics.foldl (fun t channel => (subscribeChannel conv t r id channel).2) t

/-- `subscribe_command(c)` -/
def subscribeCommand (b : Broker T) (r : Nat) (id : Sds) (topics : List Sds) : Broker T :=
  reply reg { b with toTopics := subscribeChannels conv b.toTopics r id topics } r subscribePieces

/-- `unsubscribe_command(c)` -/
def unsubscribeCommand (b : Broker T) (r : Nat) : Broker T := reply reg b r unsubscribePieces

/-- The name a command is looked up under: `argv[0]` as a C string, in lower case. -/
def commandName (argv0 : Sds) : Sds := sdstolower (cstr argv0)

/-- The command that `process_command` finds for `argv[0]`. -/
def findCommand (argv0 : Sds) : Option SubCommand := subCommandTable.find? (·.name = commandName argv0)

/-- Whether `argc` arguments are refused by an arity. -/
def arityRefused (arity argc : Int) : Prop := (arity > 0 ∧ arity ≠ argc) ∨ argc < -arity

instance (arity argc : Int) : Decidable (arityRefused arity argc) := inferInstanceAs (Decidable (_ ∨ _))

/-- `process_command(c)` for the client at `r` with the id `id`. -/
def processCommand (b : Broker T) (r : Nat) (id argv0 : Sds) (topics : List Sds) : Broker T :=
  match findCommand argv0 with
  | none => addReplyErrorFmt reg b r (ascii "unknown command " ++ [SQUOTE] ++ commandName argv0 ++ [SQUOTE])
  | some cmd =>
    if arityRefused cmd.arity (topics.length + 1) then
      addReplyErrorFmt reg b r
        (ascii "wrong number of arguments for " ++ [SQUOTE] ++ commandName argv0 ++ [SQUOTE] ++ ascii " command")
    else
      match cmd.proc with
      | .ping => pingCommand reg b r
      | .subscribe => subscribeCommand conv reg b r id topics
      | .unsubscribe => unsubscribeCommand reg b r

/-! ## Publishing -/

/-- `single_chan_publish(msg, chan, chan_len)` -/
def singleChanPublish (b : Broker T) (msg chan : Sds) : Broker T :=
  let b := { b with published := b.published ++ [(msg, chan)] }
  match b.subscibeTable.get chan with
  | none => b
  | some subSet => subSet.entries.foldl (fun b e => addReplyBulk reg b e.2 msg) b

/-- The loop of `process_pub_read_buf` from `last + 1 = i` on. `alpha` is the memory that `conv_to_alpha`
has written to and `pre` the scratch copy of the message. Every pass moves `i` on, so the length of the
message is fuel enough. -/
def pubLoop (alpha : Nat → AlphaChar) (msg : Sds) : Nat → T.State → Nat → List UInt8 → Broker T → Broker T
  | 0, _, _, _, b => b
  | fuel + 1, s, i, pre, b =>
    match trieWalker T alpha (msg.length - i) s i with
    | (_, none) => b
    | (s, some cur) =>
      let pre := (pre.set i (msg.getD i 0)).set (cur + 1) 0
      pubLoop alpha msg fuel s (cur + 1) pre (singleChanPublish reg b msg (pre.take (cur + 1)))

/-- The array of `process_pub_read_buf` behind the call of `conv_to_alpha`: the cells that were not
written hold whatever `malloc` returned. -/
def pubAlpha (msg : Sds) (junk : Nat → AlphaChar) (i : Nat) : AlphaChar :=
  ((convToAlpha conv msg (msg.length + 1))[i]?).getD (junk i)

/-- `process_pub_read_buf(c)` -/
def processPubReadBuf (b : Broker T) (c : PubClient) (junk : Nat → AlphaChar) : Broker T × PubClient :=
  (pubLoop reg (pubAlpha conv c.readBuf junk) c.readBuf (c.readBuf.length + 1) (T.root b.subTrie) 0
    (c.readBuf ++ [0]) b, { c with readBuf := [] })

/-! ## Events -/

/-- `accept_sub_handler`, when a connection was accepted as `fd`: the id is made at the time `sec` in the
process `pid`, and `out` is what `event_add` does. -/
def acceptSub (b : Broker T) (fd sec pid : Nat) (junk : Junk) (out : RegOutcome) : Broker T :=
  let counter := toInt (b.subIncCounter + 1)
  -- the result of `event_add` is not looked at, and neither is that of `ght_insert`
  let c := { subCliCreate junk fd (createObjectid sec pid counter) with ev := ⟨true, false, true⟩, added := out = .ok }
  { b with
    subIncCounter := counter
    subClis := b.subClis ++ [c]
    subcliTable := (b.subcliTable.insert c.id b.subClis.length).getD b.subcliTable }

/-- What the server reacts to. -/
inductive Op
  /-- A subscriber connects. -/
  | accept (fd sec pid : Nat) (junk : Junk) (out : RegOutcome)
  /-- The parsers have found a request of the client at `r`. -/
  | command (r : Nat) (argv0 : Sds) (topics : List Sds)
  /-- A publisher has sent a message; `junk` is the memory that the conversion is written to. -/
  | publish (msg : Sds) (junk : Nat → AlphaChar)
  /-- End of file, or a read error, on the client at `r`. -/
  | readFail (r : Nat)
  /-- The client at `r` can be written to. -/
  | writable (r : Nat) (ws : List WriteRes) (junk : WriteEnd)

/-- One event. A client that is freed has no events any more. -/
def step (b : Broker T) : Op → Broker T
  | .accept fd sec pid junk out => acceptSub b fd sec pid junk out
  | .command r argv0 topics =>
    match b.subClis[r]? with
    | some c => if c.live then processCommand conv reg b r c.id argv0 topics else b
    | none => b
  | .publish msg junk => (processPubReadBuf conv reg b ⟨0, msg⟩ junk).1
  | .readFail r => if b.Live r then b.update r subCliRelease else b
  | .writable r ws junk => if b.Live r then b.update r (sendReplyToSubcli (reg r) junk · ws) else b

variable (T) in
/-- The server after a sequence of events. -/
def serve (counter : Int) (ops : List Op) : Broker T := Machine.run (step conv reg) (.init T counter) ops

theorem serve_append (counter : Int) (before after : List Op) :
    serve T conv reg counter (before ++ after) = Machine.run (step conv reg) (serve T conv reg counter before) after :=
  Machine.run_append ..

end

end PubsubBroker
