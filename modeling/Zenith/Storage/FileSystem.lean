import Zenith.Lib.Bytes
import Zenith.Lib.Run

/-!
# Zenith — what an environment is for

The calls of `env.h`, and the file system they speak of: contents by path, changed by the
calls that create, write and delete files and by no other. A reader has the content that its
file had when it was opened, and a cursor into it.

This is the specification that the environment of the tests is compared with. Open files are
numbered in the order in which they were opened, separately for the three kinds. That a
writer's file was deleted is recorded with the writer: what happens when it is used
afterwards is not specified.

Paths are opaque bytes, and there are no directories: `CreateDir` of the tests does nothing.
Nor can a call fail for want of space, so that the only exception is that of a reader that
cannot be opened.

Two conditions on runs are stated here. `WellUsed` is what a caller owes: a writer is not
used once its file is deleted. `InReach` is not owed to anyone; it is what an environment
needs that is only a mock of this one.
-/

namespace Zenith

/-- The calls, with what they are given. Open files are named by their numbers. -/
inductive FileOp
  | newSequentialFile (fname : Bytes)
  | newRandomAccessFile (fname : Bytes)
  | newWritableFile (fname : Bytes)
  | newAppendableFile (fname : Bytes)
  | append (writer : Nat) (data : Bytes)
  | read (reader n : Nat)
  | skip (reader n : Nat)
  | readAt (reader offset n : Nat)
  | fileExists (fname : Bytes)
  | getFileSize (fname : Bytes)
  | deleteFile (fname : Bytes)

/-- What a caller gets back. -/
inductive Answer
  | done
  | found (found : Bool)
  | size (n : Nat)
  | bytes (b : Bytes)
  /-- the exception of a reader that cannot be opened -/
  | notFound
  deriving DecidableEq

/-- The file system with its open files. -/
structure FileSystem where
  files : Bytes → Option Bytes
  /-- the path of each writer, unless it was deleted -/
  writers : List (Option Bytes)
  /-- content and cursor -/
  sequential : List (Bytes × Nat)
  random : List Bytes

namespace FileSystem

/-- No files, and none open. -/
def empty : FileSystem := ⟨fun _ => none, [], [], []⟩

/-- A missing file reads as an empty one and has size 0, and it stays missing. -/
def perform (fs : FileSystem) : FileOp → FileSystem × Answer
  | .newSequentialFile fname =>
    ({ fs with sequential := fs.sequential ++ [((fs.files fname).getD [], 0)] }, .done)
  | .newRandomAccessFile fname =>
    match fs.files fname with
    | some data => ({ fs with random := fs.random ++ [data] }, .done)
    | none => (fs, .notFound)
  | .newWritableFile fname =>
    ({ fs with
      files := Function.update fs.files fname (some [])
      writers := fs.writers ++ [some fname] }, .done)
  | .newAppendableFile fname =>
    ({ fs with
      files := Function.update fs.files fname (some ((fs.files fname).getD []))
      writers := fs.writers ++ [some fname] }, .done)
  | .append writer data =>
    match fs.writers[writer]? with
    | some (some fname) =>
      ({ fs with files := Function.update fs.files fname ((fs.files fname).map (· ++ data)) },
        .done)
    | _ => (fs, .done)
  | .read reader n =>
    match fs.sequential[reader]? with
    | some (data, cursor) =>
      let next := (data.drop cursor).take n
      ({ fs with sequential := fs.sequential.set reader (data, cursor + next.length) },
        .bytes next)
    | none => (fs, .done)
  | .skip reader n =>
    match fs.sequential[reader]? with
    | some (data, cursor) =>
      ({ fs with sequential := fs.sequential.set reader (data, cursor + n) }, .done)
    | none => (fs, .done)
  | .readAt reader offset n =>
    match fs.random[reader]? with
    | some data => (fs, .bytes ((data.drop offset).take n))
    | none => (fs, .done)
  | .fileExists fname => (fs, .found (fs.files fname).isSome)
  | .getFileSize fname => (fs, .size ((fs.files fname).getD []).length)
  | .deleteFile fname =>
    ({ fs with
      files := Function.update fs.files fname none
      writers := fs.writers.map fun w => if w = some fname then none else w }, .done)

/-- The calls in order; what is observed is the answers. -/
def system : System FileSystem FileOp Answer Fault :=
  ⟨fun fs op => .ok (fs.perform op).1, fun fs op => [(fs.perform op).2]⟩

/-- A writer is used while its file is there, and no content becomes longer than a
string can be. -/
def WellUsed (fs : FileSystem) : FileOp → Prop
  | .append writer data => ∀ w ∈ fs.writers[writer]?, ∃ fname ∈ w,
    ((fs.files fname).getD []).length + data.length < 2 ^ 64
  | _ => True

/-- What keeps the environment of the tests to the file system: sizes are asked and
sequential readers opened where there is a file, and a read that asks for anything does so
up to the end of the content. -/
def InReach (fs : FileSystem) : FileOp → Prop
  | .newSequentialFile fname | .getFileSize fname => (fs.files fname).isSome = true
  | .read reader n => ∀ r ∈ fs.sequential[reader]?, n = 0 ∨ r.2 ≤ r.1.length
  | _ => True

instance (fs : FileSystem) (op : FileOp) : Decidable (fs.WellUsed op) :=
  match op with
  | .append writer data => inferInstanceAs (Decidable (∀ w ∈ fs.writers[writer]?, ∃ fname ∈ w,
    ((fs.files fname).getD []).length + data.length < 2 ^ 64))
  | .newSequentialFile _ | .newRandomAccessFile _ | .newWritableFile _ | .newAppendableFile _
  | .read _ _ | .skip _ _ | .readAt _ _ _ | .fileExists _ | .getFileSize _ | .deleteFile _ =>
    isTrue trivial

instance (fs : FileSystem) (op : FileOp) : Decidable (fs.InReach op) :=
  match op with
  | .newSequentialFile fname | .getFileSize fname =>
    inferInstanceAs (Decidable ((fs.files fname).isSome = true))
  | .read reader n => inferInstanceAs
    (Decidable (∀ r ∈ fs.sequential[reader]?, n = 0 ∨ r.2 ≤ r.1.length))
  | .newRandomAccessFile _ | .newWritableFile _ | .newAppendableFile _ | .append _ _ | .skip _ _
  | .readAt _ _ _ | .fileExists _ | .deleteFile _ => isTrue trivial

end FileSystem

end Zenith
