import Zenith.DB.Step

/-!
# Zenith — the console

The program of `main.cpp`: it reads commands line by line, performs them on a store and
prints what the store answers. `main` is written over any `Store`; `database` is the one of
the source, a database with its background worker. Being generic in the store is what makes
it possible to say later that two stores cannot be told apart by a user.

Between two lines, and among the puts of a stress test, the worker takes any number of
steps. What it does and when, and which thread of a stress test puts next, is in the turns
of `Running`. A read has no writer beside it, and the worker leaves the memtables alone, so
it takes place at its load of `layout_`.

The commands are those of the source with their texts. A token is read as `operator>>` reads
it, and the value of a put is the rest of the line without the blanks in front of it. A line
that is empty prints the prompt again and nothing else; the end of the input prints the
farewell, as `exit` and `quit` do.
-/

namespace Zenith

open Bytes

namespace Console

/-- The bytes of a text. -/
def ascii (s : String) : Bytes := s.toList.map fun c => UInt8.ofNat c.toNat

/-- A text with a line break. -/
def textLine (s : String) : Bytes := ascii s ++ [Lines.newline]

/-- What `main` asks of a store. A read may find the store in a later state. -/
structure Store (σ : Type) where
  put : σ → Bytes → Bytes → Except Fault σ
  remove : σ → Bytes → Except Fault σ
  get : σ → Bytes → Except Fault (σ × Option Bytes)
  scan : σ → Bytes → Bytes → Except Fault (σ × List Entry)
  /-- threads that put their lists concurrently, until all are done -/
  spawn : σ → List (List Entry) → Except Fault σ

-- ---------------------------------------------------------------------------
-- The stress test
-- ---------------------------------------------------------------------------

/-- The key that thread `id` puts in round `i`. -/
def stressKey (id i : Nat) : Bytes :=
  ascii "thread:" ++ (Text.decimal id ++ (ascii ":k" ++ Text.decimal i))

def stressValue (id : Nat) : Bytes := ascii "value_from_thread_" ++ Text.decimal id

/-- What `writer_thread` puts. -/
def writerThread (id count : Nat) : List Entry :=
  (List.range count).map fun i => (stressKey id i, stressValue id)

/-- The numbers of the source; the text that `stress` prints names them. -/
def threads : Nat := 4

def opsPerThread : Nat := 5000

/-- The threads of a stress test. -/
def pool : List (List Entry) := (List.range threads).map fun id => writerThread id opsPerThread

-- ---------------------------------------------------------------------------
-- Commands
-- ---------------------------------------------------------------------------

/-- `iss >> token`: the token is empty when there is none, and nothing is read after that,
because the stream has failed. -/
def readToken (s : Bytes) : Bytes × Bytes := (Text.nextToken s).getD ([], [])

/-- The blank and the tab. -/
def isBlank (b : UInt8) : Bool := b == 32 || b == 9

/-- `getline(iss, value)`, and the blanks in front taken off. -/
def restOfLine (s : Bytes) : Bytes := s.dropWhile isBlank

/-- The end of a scan for which none is given. -/
def lastKey : Bytes := [0xFF, 0xFF, 0xFF, 0xFF]

/-- How a row of a scan is printed. -/
def rowLine (kv : Entry) : Bytes := kv.1 ++ (ascii " -> " ++ (kv.2 ++ [Lines.newline]))

variable {σ : Type}

/-- One command: the store after it, and what it prints. The store is asked only when the
arguments are there. -/
def command (S : Store σ) (s : σ) (line : Bytes) : Except Fault (σ × Bytes) :=
  let (cmd, rest) := readToken line
  if cmd = ascii "put" then
    let (key, rest) := readToken rest
    let value := restOfLine rest
    if key = [] then .ok (s, textLine "Usage: put <key> <value>")
    else do
      let s ← S.put s key value
      return (s, textLine "OK")
  else if cmd = ascii "get" then
    let (key, _) := readToken rest
    if key = [] then .ok (s, textLine "Usage: get <key>")
    else do
      match ← S.get s key with
      | (s, some value) => return (s, value ++ [Lines.newline])
      | (s, none) => return (s, textLine "(nil)")
  else if cmd = ascii "del" then
    let (key, _) := readToken rest
    if key = [] then .ok (s, textLine "Usage: del <key>")
    else do
      let s ← S.remove s key
      return (s, textLine "OK")
  else if cmd = ascii "scan" then
    let (start, rest) := readToken rest
    let (stop, _) := readToken rest
    do
      let (s, results) ← S.scan s start (if stop = [] then lastKey else stop)
      return (s, if results = [] then textLine "(empty)" else results.flatMap rowLine)
  else if cmd = ascii "stress" then do
    let s ← S.spawn s pool
    return (s, ascii "Starting stress test with " ++ Text.decimal threads ++ ascii " threads, " ++
      Text.decimal opsPerThread ++ textLine " ops each..." ++ textLine "Stress test complete.")
  else .ok (s, textLine "Unknown command.")

def prompt : Bytes := ascii "> "

/-- The loop over the lines of the input. The prompt is printed before a line is read, so
once more at the end. -/
def loop (S : Store σ) : σ → List Bytes → Except Fault Bytes
  | _, [] => .ok (prompt ++ textLine "Bye!")
  | s, line :: rest =>
    if line = [] then do
      let out ← loop S s rest
      return prompt ++ out
    else if line = ascii "exit" ∨ line = ascii "quit" then .ok (prompt ++ textLine "Bye!")
    else do
      let (s, printed) ← command S s line
      let out ← loop S s rest
      return prompt ++ (printed ++ out)

def banner : Bytes :=
  textLine "ZenithDB Console (Node: node1)" ++ textLine
    "Commands: put <key> <value> | get <key> | del <key> | scan [<start> [<end>]] | stress | exit"

/-- The program: all it prints for an input. -/
def main (S : Store σ) (s : σ) (input : Bytes) : Except Fault Bytes := do
  let out ← loop S s (Lines.fields Lines.newline input)
  return banner ++ out

-- ---------------------------------------------------------------------------
-- The database
-- ---------------------------------------------------------------------------

/-- Who goes next in a stress test. -/
inductive Pick
  | thread (i usage : Nat)
  | worker (time : Nat → Nat)

/-- What happens along one command: the steps that the worker takes before it, the size of
the memtable after a put, and the schedule of a stress test. -/
structure Turn where
  background : List (Nat → Nat)
  usage : Nat
  picks : List Pick

/-- The puts of concurrent threads, each in its own order. When the schedule ends the
threads that are left finish one after the other. -/
def interleave (usage : Nat) : List (List Entry) → List Pick → List ZenithDB.Action
  | threads, [] => threads.flatten.map fun kv => .put usage kv.1 kv.2
  | threads, .worker time :: picks => .work time :: interleave usage threads picks
  | threads, .thread i size :: picks =>
    match threads[i]? with
    | some (kv :: more) => .put size kv.1 kv.2 :: interleave usage (threads.set i more) picks
    | _ => interleave usage threads picks

/-- The database of the program, and what is going to happen beside its commands. -/
structure Running where
  db : ZenithDB
  turns : List Turn

/-- Takes a turn; without one the worker rests. The steps of the worker come before the
actions of the command: what it does after them belongs to the next turn. -/
def Running.perform (p : Platform) (s : Running) (actions : Turn → List ZenithDB.Action) :
    Except Fault Running := do
  let turn := s.turns.headD ⟨[], 0, []⟩
  let db ← (ZenithDB.system p).run s.db (turn.background.map .work ++ actions turn)
  return ⟨db, s.turns.tail⟩

/-- The database as a store of the console. A removal is a put of the empty value, as
`ZenithDB::remove` is. -/
def database (p : Platform) : Store Running where
  put s key value := s.perform p fun turn => [.put turn.usage key value]
  remove s key := s.perform p fun turn => [.put turn.usage key []]
  get s key := do
    let s ← s.perform p fun _ => []
    return (s, ← s.db.get key)
  scan s start stop := do
    let s ← s.perform p fun _ => []
    return (s, ← s.db.scan p start stop)
  spawn s threads := s.perform p fun turn => interleave turn.usage threads turn.picks

end Console

end Zenith
