import Zenith.Storage.FileSystem

/-!
# Zenith — the in-memory environment of the tests

`MockEnv` of `mock_env.h` against the file system it simulates.

Its files are the nodes of a map. A node keeps its address until its file is deleted, and a
writer holds the address of its file's data, so the model keeps the map and the nodes apart;
using the address of a deleted node is a fault. Two things part the environment from a file
system: `file_map_[fname]` inserts an empty file where there is none, which
`NewSequentialFile` and `GetFileSize` do to a missing path; and `MockSequentialFile`
computes what is left as an unsigned difference, which underflows behind the end.

`Simulates` relates the environment to a file system: the same content for each path, in a
node that no other path has, and the same open files under the same numbers (`Paired`). It
is proved for the four ways in which the files change, which are writing a content,
inserting an empty file, adding a writer and deleting, and from these for each call. A
reader of the environment may be anywhere once it was moved behind the end of its content,
and nothing is said of it there.

Main results: `mock_agrees` — without these two, every answer is that of the file system —
and `mock_diverges`.
-/

namespace Zenith

/-- A sequential reader: a copy of the content, and a position. -/
structure MockSequentialFile where
  data : Bytes
  pos : Nat
  deriving DecidableEq

namespace MockSequentialFile

/-- `data_.size() - pos_`, an unsigned difference. -/
def available (f : MockSequentialFile) : Nat :=
  if f.pos ≤ f.data.length then f.data.length - f.pos else 2 ^ 64 - (f.pos - f.data.length)

/-- Reading outside the string is a fault. -/
def read (f : MockSequentialFile) (n : Nat) : Except Fault (Bytes × MockSequentialFile) :=
  let toRead := min n f.available
  if toRead = 0 then .ok ([], f)
  else do
    let result ← Bytes.slice f.data f.pos toRead
    return (result, { f with pos := f.pos + toRead })

/-- `Skip` moves the position, wherever that leads to. -/
def skip (f : MockSequentialFile) (n : Nat) : MockSequentialFile :=
  { f with pos := (f.pos + n) % 2 ^ 64 }

end MockSequentialFile

/-- `MockRandomAccessFile::Read` -/
def mockReadAt (data : Bytes) (offset n : Nat) : Bytes :=
  if offset ≥ data.length then []
  else (data.drop offset).take (min n (data.length - offset))

/-- The environment, its open files in the order in which they were opened. -/
structure MockEnv where
  fileMap : Bytes → Option Nat
  /-- the data of the nodes, by address -/
  nodes : Nat → Option Bytes
  nextNode : Nat
  /-- the node of each writer -/
  writers : List Nat
  sequential : List MockSequentialFile
  random : List Bytes

namespace MockEnv

def new : MockEnv := ⟨fun _ => none, fun _ => none, 0, [], [], []⟩

/-- `file_map_[fname]`: the node of a file and its data; a missing file is inserted. -/
def entry (env : MockEnv) (fname : Bytes) : MockEnv × Nat × Bytes :=
  match env.fileMap fname with
  | some node => (env, node, (env.nodes node).getD [])
  | none =>
    ({ env with
      fileMap := Function.update env.fileMap fname (some env.nextNode)
      nodes := Function.update env.nodes env.nextNode (some [])
      nextNode := env.nextNode + 1 }, env.nextNode, [])

/-- `NewSequentialFile`: a missing file is inserted. -/
def newSequentialFile (env : MockEnv) (fname : Bytes) : MockEnv :=
  let (env, _, data) := env.entry fname
  { env with sequential := env.sequential ++ [⟨data, 0⟩] }

/-- `NewRandomAccessFile`: a missing file is an exception. -/
def newRandomAccessFile (env : MockEnv) (fname : Bytes) : MockEnv × Answer :=
  match env.fileMap fname with
  | none => (env, .notFound)
  | some node => ({ env with random := env.random ++ [(env.nodes node).getD []] }, .done)

/-- `NewWritableFile`: the content is cleared. -/
def newWritableFile (env : MockEnv) (fname : Bytes) : MockEnv :=
  let (env, node, _) := env.entry fname
  { env with
    nodes := Function.update env.nodes node (some [])
    writers := env.writers ++ [node] }

/-- `NewAppendableFile`: the content is kept. -/
def newAppendableFile (env : MockEnv) (fname : Bytes) : MockEnv :=
  let (env, node, _) := env.entry fname
  { env with writers := env.writers ++ [node] }

/-- `MockWritableFile::Append` -/
def append (env : MockEnv) (node : Nat) (data : Bytes) : Except Fault MockEnv :=
  match env.nodes node with
  | some old => .ok { env with nodes := Function.update env.nodes node (some (old ++ data)) }
  | none => .error .outOfBounds

/-- `FileExists` -/
def fileExists (env : MockEnv) (fname : Bytes) : Bool := (env.fileMap fname).isSome

/-- `GetFileSize`: a missing file is inserted. -/
def getFileSize (env : MockEnv) (fname : Bytes) : MockEnv × Nat :=
  let (env, _, data) := env.entry fname
  (env, data.length)

/-- `DeleteFile`: the node goes with its path. -/
def deleteFile (env : MockEnv) (fname : Bytes) : MockEnv :=
  match env.fileMap fname with
  | some node =>
    { env with
      fileMap := Function.update env.fileMap fname none
      nodes := Function.update env.nodes node none }
  | none => env

/-- Any call, with its answer. -/
def perform (env : MockEnv) : FileOp → Except Fault (MockEnv × Answer)
  | .newSequentialFile fname => .ok (env.newSequentialFile fname, .done)
  | .newRandomAccessFile fname => .ok (env.newRandomAccessFile fname)
  | .newWritableFile fname => .ok (env.newWritableFile fname, .done)
  | .newAppendableFile fname => .ok (env.newAppendableFile fname, .done)
  | .append writer data =>
    match env.writers[writer]? with
    | some node => (env.append node data).map fun env => (env, .done)
    | none => .ok (env, .done)
  | .read reader n =>
    match env.sequential[reader]? with
    | some f => do
      let (result, f) ← f.read n
      return ({ env with sequential := env.sequential.set reader f }, .bytes result)
    | none => .ok (env, .done)
  | .skip reader n =>
    match env.sequential[reader]? with
    | some f => .ok ({ env with sequential := env.sequential.set reader (f.skip n) }, .done)
    | none => .ok (env, .done)
  | .readAt reader offset n =>
    match env.random[reader]? with
    | some data => .ok (env, .bytes (mockReadAt data offset n))
    | none => .ok (env, .done)
  | .fileExists fname => .ok (env, .found (env.fileExists fname))
  | .getFileSize fname => .ok ((env.getFileSize fname).1, .size (env.getFileSize fname).2)
  | .deleteFile fname => .ok (env.deleteFile fname, .done)

/-- What is observed of a call, which is nothing if it faults. -/
def answers (env : MockEnv) (op : FileOp) : List Answer :=
  match env.perform op with
  | .ok (_, answer) => [answer]
  | .error _ => []

/-- The calls in order; what is observed is the answers. -/
def system : System MockEnv FileOp Answer Fault :=
  ⟨fun env op => (env.perform op).map Prod.fst, answers⟩

end MockEnv

-- ---------------------------------------------------------------------------
-- Tables of open files
-- ---------------------------------------------------------------------------

/-- Two tables with the same indices and related entries. -/
structure Paired {α β : Type} (R : α → β → Prop) (as : List α) (bs : List β) : Prop where
  length : as.length = bs.length
  entry : ∀ (i : Nat) (a : α) (b : β), as[i]? = some a → bs[i]? = some b → R a b

namespace Paired

variable {α β : Type} {R : α → β → Prop} {as : List α} {bs : List β}

/-- No file is open. -/
theorem nil : Paired R ([] : List α) ([] : List β) :=
  ⟨rfl, fun i a b ha => absurd ha (by simp)⟩

/-- One more file is opened, in both. -/
theorem concat (h : Paired R as bs) {a : α} {b : β} (hab : R a b) :
    Paired R (as ++ [a]) (bs ++ [b]) := by
  refine ⟨by simp [h.length], fun i a' b' ha hb => ?_⟩
  rcases Nat.lt_or_ge i as.length with hi | hi
  · rw [List.getElem?_append_left hi] at ha
    rw [List.getElem?_append_left (h.length ▸ hi)] at hb
    exact h.entry i a' b' ha hb
  · rw [List.getElem?_append_right hi] at ha
    rw [List.getElem?_append_right (h.length ▸ hi), ← h.length] at hb
    obtain rfl := List.mem_singleton.mp (List.mem_of_getElem? ha)
    obtain rfl := List.mem_singleton.mp (List.mem_of_getElem? hb)
    exact hab

/-- An open file is changed, in both. -/
theorem set (h : Paired R as bs) (i : Nat) {a : α} {b : β} (hab : R a b) :
    Paired R (as.set i a) (bs.set i b) := by
  refine ⟨by simp [h.length], fun j a' b' ha hb => ?_⟩
  rw [List.getElem?_set] at ha hb
  by_cases hij : i = j
  · subst hij
    rw [if_pos rfl] at ha hb
    split at ha
    · rw [if_pos (h.length ▸ ‹i < as.length›)] at hb
      rw [← Option.some.inj ha, ← Option.some.inj hb]
      exact hab
    · exact absurd ha (by simp)
  · rw [if_neg hij] at ha hb
    exact h.entry j a' b' ha hb

/-- The entries of one table are changed. -/
theorem map_right (h : Paired R as bs) {γ : Type} {R' : α → γ → Prop} {f : β → γ}
    (hf : ∀ a b, R a b → R' a (f b)) : Paired R' as (bs.map f) := by
  refine ⟨by simp [h.length], fun i a c ha hc => ?_⟩
  rw [List.getElem?_map, Option.map_eq_some_iff] at hc
  obtain ⟨b, hb, rfl⟩ := hc
  exact hf a b (h.entry i a b ha hb)

/-- A weaker relation. -/
theorem imp (h : Paired R as bs) {R' : α → β → Prop} (hR : ∀ a b, R a b → R' a b) :
    Paired R' as bs := ⟨h.length, fun i a b ha hb => hR a b (h.entry i a b ha hb)⟩

/-- Both tables have an index, or neither has. -/
theorem lookup (h : Paired R as bs) (i : Nat) :
    (as[i]? = none ∧ bs[i]? = none) ∨ ∃ a b, as[i]? = some a ∧ bs[i]? = some b ∧ R a b := by
  rcases Nat.lt_or_ge i as.length with hi | hi
  · have ha := List.getElem?_eq_getElem hi
    have hb := List.getElem?_eq_getElem (h.length ▸ hi : i < bs.length)
    exact .inr ⟨_, _, ha, hb, h.entry i _ _ ha hb⟩
  · exact .inl ⟨List.getElem?_eq_none hi, List.getElem?_eq_none (h.length ▸ hi)⟩

end Paired

-- ---------------------------------------------------------------------------
-- The simulation
-- ---------------------------------------------------------------------------

/-- A reader and its content and cursor; behind the end its position is anything. -/
def SameReader (f : MockSequentialFile) (r : Bytes × Nat) : Prop :=
  f.data = r.1 ∧ r.1.length < 2 ^ 64 ∧ (r.2 ≤ r.1.length → f.pos = r.2)

/-- The environment holds the files of the file system, in nodes of their own. -/
structure Simulates (env : MockEnv) (fs : FileSystem) : Prop where
  files : ∀ p, fs.files p = (env.fileMap p).bind env.nodes
  node : ∀ p id, env.fileMap p = some id →
    id < env.nextNode ∧ ∃ data, env.nodes id = some data ∧ data.length < 2 ^ 64
  inj : ∀ p q id, env.fileMap p = some id → env.fileMap q = some id → p = q
  writers : Paired (fun id w => ∀ p, w = some p → env.fileMap p = some id) env.writers fs.writers
  sequential : Paired SameReader env.sequential fs.sequential
  random : env.random = fs.random

namespace Simulates

variable {env : MockEnv} {fs : FileSystem}

/-- Neither has a file. -/
theorem empty : Simulates .new .empty :=
  ⟨fun _ => rfl, fun _ _ h => absurd h (by simp [MockEnv.new]),
    fun _ _ _ h => absurd h (by simp [MockEnv.new]), .nil, .nil, rfl⟩

/-- The node of a file that is there. -/
theorem of_files (h : Simulates env fs) {p data : Bytes} (hdata : fs.files p = some data) :
    ∃ id, env.fileMap p = some id ∧ env.nodes id = some data ∧ data.length < 2 ^ 64 ∧
      env.entry p = (env, id, data) := by
  rw [h.files p, Option.bind_eq_some_iff] at hdata
  obtain ⟨id, hid, hnode⟩ := hdata
  obtain ⟨-, data', hdata', hlen⟩ := h.node p id hid
  obtain rfl := Option.some.inj (hnode.symm.trans hdata')
  refine ⟨id, hid, hnode, hlen, ?_⟩
  rw [MockEnv.entry, hid]
  simp only [hnode, Option.getD_some]

/-- A missing file has no node. -/
theorem fileMap_eq_none (h : Simulates env fs) {p : Bytes} (hp : fs.files p = none) :
    env.fileMap p = none := by
  cases hid : env.fileMap p with
  | none => rfl
  | some id =>
    obtain ⟨-, data, hdata, -⟩ := h.node p id hid
    rw [h.files p, hid, Option.bind_some, hdata] at hp
    exact absurd hp (by simp)

/-- Contents that agree everywhere, in the same nodes as before. -/
theorem of_sameNodes (h : Simulates env fs) {files : Bytes → Option Bytes}
    {nodes : Nat → Option Bytes}
    (hfiles : ∀ p, files p = (env.fileMap p).bind nodes)
    (hnodes : ∀ p id, env.fileMap p = some id → ∃ data, nodes id = some data ∧
      data.length < 2 ^ 64) :
    Simulates { env with nodes } { fs with files } :=
  ⟨hfiles, fun p id hid => ⟨(h.node p id hid).1, hnodes p id hid⟩, h.inj, h.writers,
    h.sequential, h.random⟩

/-- **Writing** the content of a file that is there. -/
theorem write (h : Simulates env fs) {p : Bytes} {id : Nat} (hid : env.fileMap p = some id)
    (data : Bytes) (hlen : data.length < 2 ^ 64) :
    Simulates { env with nodes := Function.update env.nodes id (some data) }
      { fs with files := Function.update fs.files p (some data) } := by
  refine h.of_sameNodes (fun q => ?_) fun q id' hid' => ?_
  · by_cases hq : q = p
    · subst hq
      rw [Function.update_self, hid, Option.bind_some, Function.update_self]
    · rw [Function.update_of_ne hq, h.files q]
      cases hid' : env.fileMap q with
      | none => rfl
      | some id' =>
        have hne : id' ≠ id := fun heq => hq (h.inj q p id (heq ▸ hid') hid)
        rw [Option.bind_some, Option.bind_some, Function.update_of_ne hne]
  · by_cases hq : id' = id
    · subst hq
      exact ⟨data, Function.update_self .., hlen⟩
    · obtain ⟨-, old, hold, hlen'⟩ := h.node q id' hid'
      exact ⟨old, by rw [Function.update_of_ne hq, hold], hlen'⟩

/-- **Inserting** an empty file where there is none. -/
theorem entry_missing (h : Simulates env fs) {p : Bytes} (hp : fs.files p = none) :
    env.entry p = ((env.entry p).1, env.nextNode, []) ∧
      (env.entry p).1.fileMap p = some env.nextNode ∧
      Simulates (env.entry p).1 { fs with files := Function.update fs.files p (some []) } := by
  -- nodes are numbered upwards, so the next number is no file's
  have hmap := h.fileMap_eq_none hp
  have hentry : env.entry p = ({ env with
      fileMap := Function.update env.fileMap p (some env.nextNode)
      nodes := Function.update env.nodes env.nextNode (some [])
      nextNode := env.nextNode + 1 }, env.nextNode, []) := by
    rw [MockEnv.entry, hmap]
  -- no file has the node that comes next
  have hne : ∀ q id, env.fileMap q = some id → id ≠ env.nextNode := fun q id hid =>
    (h.node q id hid).1.ne
  rw [hentry]
  refine ⟨rfl, Function.update_self .., ⟨fun q => ?_, fun q id hid => ?_, fun q r id hq hr => ?_,
    h.writers.imp fun id w hw q hwq => ?_, h.sequential, h.random⟩⟩
  · by_cases hq : q = p
    · subst hq
      simp only [Function.update_self, Option.bind_some]
    · -- other files keep their content
      simp only [Function.update_of_ne hq, h.files q]
      cases hid : env.fileMap q with
      | none => rfl
      | some id => simp only [Option.bind_some, Function.update_of_ne (hne q id hid)]
  · by_cases hq : q = p
    · subst hq
      simp only [Function.update_self, Option.some_inj] at hid
      subst hid
      exact ⟨Nat.lt_succ_self _, [], Function.update_self .., by norm_num⟩
    · simp only [Function.update_of_ne hq] at hid
      obtain ⟨hlt, data, hdata, hlen⟩ := h.node q id hid
      exact ⟨Nat.lt_succ_of_lt hlt, data,
        by simp only [Function.update_of_ne (hne q id hid), hdata], hlen⟩
  · -- the new node is no other file's
    have hcases : ∀ r, Function.update env.fileMap p (some env.nextNode) r = some id →
        r = p ∧ id = env.nextNode ∨ env.fileMap r = some id := by
      intro r hr
      by_cases hrp : r = p
      · subst hrp
        rw [Function.update_self] at hr
        exact .inl ⟨rfl, (Option.some.inj hr).symm⟩
      · rw [Function.update_of_ne hrp] at hr
        exact .inr hr
    rcases hcases q hq with ⟨hqp, hqid⟩ | hqold <;> rcases hcases r hr with ⟨hrp, hrid⟩ | hrold
    · exact hqp.trans hrp.symm
    · exact absurd hqid (hne r id hrold)
    · exact absurd hrid (hne q id hqold)
    · exact h.inj q r id hqold hrold
  · -- no writer writes to the new name
    have hqid := hw q hwq
    have hqp : q ≠ p := fun heq => by
      rw [heq, hmap] at hqid
      exact absurd hqid (by simp)
    exact (Function.update_of_ne hqp ..).trans hqid

/-- A writer for a file that is there. -/
theorem addWriter (h : Simulates env fs) {p : Bytes} {id : Nat} (hid : env.fileMap p = some id) :
    Simulates { env with writers := env.writers ++ [id] }
      { fs with writers := fs.writers ++ [some p] } := by
  refine ⟨h.files, h.node, h.inj, h.writers.concat fun q hq => ?_, h.sequential, h.random⟩
  rw [← Option.some.inj hq, hid]

/-- **Deleting**: the writers of the file are not used any more. -/
theorem delete (h : Simulates env fs) (p : Bytes) :
    Simulates (env.deleteFile p) { fs with
      files := Function.update fs.files p none
      writers := fs.writers.map fun w => if w = some p then none else w } := by
  have hwriters : Paired (fun id w => ∀ q, w = some q → q ≠ p ∧ env.fileMap q = some id)
      env.writers (fs.writers.map fun w => if w = some p then none else w) := by
    -- the writers of the other files keep their nodes
    refine h.writers.map_right fun id w hw q hq => ?_
    by_cases hwp : w = some p
    · rw [if_pos hwp] at hq
      exact absurd hq (by simp)
    · rw [if_neg hwp] at hq
      exact ⟨fun heq => hwp (heq ▸ hq), hw q hq⟩
  cases hid : env.fileMap p with
  | none =>
    -- there is no such file
    have hdelete : env.deleteFile p = env := by rw [MockEnv.deleteFile, hid]
    have hfiles : Function.update fs.files p none = fs.files := by
      rw [Function.update_eq_self_iff, h.files p, hid]
      rfl
    rw [hdelete, hfiles]
    exact ⟨h.files, h.node, h.inj, hwriters.imp fun id w hw q hq => (hw q hq).2, h.sequential,
      h.random⟩
  | some id =>
    have hdelete : env.deleteFile p = { env with
        fileMap := Function.update env.fileMap p none
        nodes := Function.update env.nodes id none } := by rw [MockEnv.deleteFile, hid]
    -- the files left have other nodes
    have hother : ∀ q id', Function.update env.fileMap p none q = some id' →
        q ≠ p ∧ env.fileMap q = some id' ∧ id' ≠ id := by
      intro q id' hq
      have hqp : q ≠ p := fun heq => by
        rw [heq, Function.update_self] at hq
        exact absurd hq (by simp)
      rw [Function.update_of_ne hqp] at hq
      exact ⟨hqp, hq, fun heq => hqp (h.inj q p id (heq ▸ hq) hid)⟩
    rw [hdelete]
    refine ⟨fun q => ?_, fun q id' hq => ?_, fun q r id' hq hr => ?_,
      hwriters.imp fun id' w hw q hwq => ?_, h.sequential, h.random⟩
    · by_cases hqp : q = p
      · subst hqp
        simp only [Function.update_self, Option.bind_none]
      · simp only [Function.update_of_ne hqp, h.files q]
        cases hid' : env.fileMap q with
        | none => rfl
        | some id' =>
          have hne : id' ≠ id := fun heq => hqp (h.inj q p id (heq ▸ hid') hid)
          simp only [Option.bind_some, Function.update_of_ne hne]
    · obtain ⟨-, hold, hne⟩ := hother q id' hq
      obtain ⟨hlt, data, hdata, hlen⟩ := h.node q id' hold
      exact ⟨hlt, data, by simp only [Function.update_of_ne hne, hdata], hlen⟩
    · exact h.inj q r id' (hother q id' hq).2.1 (hother r id' hr).2.1
    · obtain ⟨hqp, hold⟩ := hw q hwq
      exact (Function.update_of_ne hqp ..).trans hold

/-! The calls -/

/-- A reader of a file that is there. -/
theorem newSequentialFile (h : Simulates env fs) {p data : Bytes}
    (hdata : fs.files p = some data) :
    Simulates (env.newSequentialFile p)
      { fs with sequential := fs.sequential ++ [((fs.files p).getD [], 0)] } := by
  obtain ⟨id, -, -, hlen, hentry⟩ := h.of_files hdata
  rw [MockEnv.newSequentialFile, hentry, hdata]
  exact ⟨h.files, h.node, h.inj, h.writers, h.sequential.concat ⟨rfl, hlen, fun _ => rfl⟩, h.random⟩

/-- A writer, of a file that is emptied or inserted. -/
theorem newWritableFile (h : Simulates env fs) (p : Bytes) :
    Simulates (env.newWritableFile p) { fs with
      files := Function.update fs.files p (some []), writers := fs.writers ++ [some p] } := by
  cases hp : fs.files p with
  | some data =>
    obtain ⟨id, hid, -, -, hentry⟩ := h.of_files hp
    rw [MockEnv.newWritableFile, hentry]
    exact (h.write hid [] (by norm_num)).addWriter hid
  | none =>
    obtain ⟨hentry, hid, hinserted⟩ := h.entry_missing hp
    rw [MockEnv.newWritableFile, hentry]
    have hwrite := (hinserted.write hid [] (by norm_num)).addWriter hid
    simp only [Function.update_idem] at hwrite
    exact hwrite

/-- A writer, of a file that is kept or inserted. -/
theorem newAppendableFile (h : Simulates env fs) (p : Bytes) :
    Simulates (env.newAppendableFile p) { fs with
      files := Function.update fs.files p (some ((fs.files p).getD []))
      writers := fs.writers ++ [some p] } := by
  cases hp : fs.files p with
  | some data =>
    obtain ⟨id, hid, -, -, hentry⟩ := h.of_files hp
    have hsame : Function.update fs.files p (some data) = fs.files :=
      Function.update_eq_self_iff.mpr hp.symm
    rw [MockEnv.newAppendableFile, hentry, Option.getD_some, hsame]
    exact h.addWriter hid
  | none =>
    obtain ⟨hentry, hid, hinserted⟩ := h.entry_missing hp
    rw [MockEnv.newAppendableFile, hentry, Option.getD_none]
    exact hinserted.addWriter hid

/-- **Read**, up to the end of the content. -/
theorem read {f : MockSequentialFile} {data : Bytes} {cursor n : Nat}
    (h : SameReader f (data, cursor)) (hreach : n = 0 ∨ cursor ≤ data.length) :
    ∃ f', f.read n = .ok ((data.drop cursor).take n, f') ∧
      SameReader f' (data, cursor + ((data.drop cursor).take n).length) := by
  obtain ⟨rfl, hlen, hpos⟩ := h
  simp only at hlen hpos
  have hnext : ((f.data.drop cursor).take n).length = min n (f.data.length - cursor) := by
    rw [List.length_take, List.length_drop]
  by_cases hzero : n = 0 ∨ cursor = f.data.length
  · -- nothing is asked for, or nothing is left
    have hnil : (f.data.drop cursor).take n = [] := by
      rw [List.eq_nil_iff_length_eq_zero, hnext]
      omega
    have htoRead : min n f.available = 0 := by
      rcases hzero with rfl | hend
      · exact Nat.zero_min _
      · rw [MockSequentialFile.available, hpos hend.le, if_pos hend.le]
        omega
    refine ⟨f, ?_, rfl, hlen, ?_⟩
    · simp only [MockSequentialFile.read, htoRead, if_true, hnil]
    · rw [hnil]
      exact hpos
  · -- something is left
    have hle : cursor ≤ f.data.length := hreach.resolve_left fun hn => hzero (.inl hn)
    have htoRead : min n f.available = min n (f.data.length - cursor) := by
      rw [MockSequentialFile.available, hpos hle, if_pos hle]
    have hslice : Bytes.slice f.data f.pos (min n (f.data.length - cursor)) =
        .ok ((f.data.drop cursor).take n) := by
      rw [Bytes.slice, hpos hle, if_pos (by omega)]
      refine congrArg Except.ok (List.take_eq_take_iff.mpr ?_)
      rw [List.length_drop]
      omega
    refine ⟨{ f with pos := f.pos + min n (f.data.length - cursor) }, ?_, rfl, hlen, fun _ => ?_⟩
    · simp only [MockSequentialFile.read, htoRead]
      rw [if_neg (by omega), hslice]
      rfl
    · show f.pos + min n (f.data.length - cursor) = _
      rw [hpos hle, hnext]

/-- **Skip**. Behind the end the positions may part, and nothing is said of them. -/
theorem skip {f : MockSequentialFile} {data : Bytes} {cursor : Nat}
    (h : SameReader f (data, cursor)) (n : Nat) : SameReader (f.skip n) (data, cursor + n) := by
  obtain ⟨rfl, hlen, hpos⟩ := h
  refine ⟨rfl, hlen, fun hle => ?_⟩
  simp only at hlen hpos hle
  rw [MockSequentialFile.skip, hpos (by omega)]
  exact Nat.mod_eq_of_lt (by omega)

/-- A read at an offset, past the end as well. -/
theorem mockReadAt_eq (data : Bytes) (offset n : Nat) :
    mockReadAt data offset n = (data.drop offset).take n := by
  rw [mockReadAt]
  split
  · next hge => rw [List.drop_eq_nil_of_le hge, List.take_nil]
  · rw [List.take_eq_take_iff, List.length_drop]
    omega

/-- **FileExists** -/
theorem fileExists (h : Simulates env fs) (p : Bytes) :
    env.fileExists p = (fs.files p).isSome := by
  rw [MockEnv.fileExists]
  cases hp : fs.files p with
  | none =>
    rw [h.fileMap_eq_none hp]
    rfl
  | some data =>
    obtain ⟨id, hid, -⟩ := h.of_files hp
    rw [hid]
    rfl

/-- The size of a file that is there. -/
theorem getFileSize (h : Simulates env fs) {p data : Bytes} (hdata : fs.files p = some data) :
    env.getFileSize p = (env, data.length) := by
  obtain ⟨id, -, -, -, hentry⟩ := h.of_files hdata
  simp only [MockEnv.getFileSize, hentry]

/-- **One call.** -/
theorem perform (h : Simulates env fs) {op : FileOp} (hused : fs.WellUsed op)
    (hreach : fs.InReach op) :
    ∃ env', env.perform op = .ok (env', (fs.perform op).2) ∧ Simulates env' (fs.perform op).1 := by
  -- one case for each call
  cases op with
  | newSequentialFile p =>
    obtain ⟨data, hdata⟩ := Option.isSome_iff_exists.mp hreach
    exact ⟨_, rfl, h.newSequentialFile hdata⟩
  | newRandomAccessFile p =>
    rw [MockEnv.perform, MockEnv.newRandomAccessFile, FileSystem.perform]
    cases hp : fs.files p with
    | none =>
      rw [h.fileMap_eq_none hp]
      -- no such file
      exact ⟨env, rfl, h⟩
    | some data =>
      obtain ⟨id, hid, hnode, -⟩ := h.of_files hp
      rw [hid]
      refine ⟨_, rfl, h.files, h.node, h.inj, h.writers, h.sequential, ?_⟩
      rw [hnode, h.random]
      rfl
  | newWritableFile p => exact ⟨_, rfl, h.newWritableFile p⟩
  | newAppendableFile p => exact ⟨_, rfl, h.newAppendableFile p⟩
  | append w data =>
    rw [MockEnv.perform, FileSystem.perform]
    rcases h.writers.lookup w with ⟨hnone, hnone'⟩ | ⟨id, fname, hw, hw', hsame⟩
    · -- no such writer
      rw [hnone, hnone']
      exact ⟨env, rfl, h⟩
    · -- the file of a writer is there, and stays below the limit
      obtain ⟨p, rfl, hlen⟩ := hused fname hw'
      have hid := hsame p rfl
      obtain ⟨-, old, hold, -⟩ := h.node p id hid
      have hfile : fs.files p = some old := by rw [h.files p, hid, Option.bind_some, hold]
      rw [hfile, Option.getD_some] at hlen
      rw [hw, hw']
      refine ⟨{ env with nodes := Function.update env.nodes id (some (old ++ data)) }, ?_, ?_⟩
      · simp only [MockEnv.append, hold]
        rfl
      · simp only [hfile, Option.map_some]
        exact h.write hid _ (by rwa [List.length_append])
  | read r n =>
    rw [MockEnv.perform, FileSystem.perform]
    rcases h.sequential.lookup r with ⟨hnone, hnone'⟩ | ⟨f, ⟨data, cursor⟩, hr, hr', hsame⟩
    · -- no such reader
      rw [hnone, hnone']
      exact ⟨env, rfl, h⟩
    · obtain ⟨f', hread, hsame'⟩ := Simulates.read hsame (hreach _ hr')
      rw [hr, hr']
      refine ⟨{ env with sequential := env.sequential.set r f' }, ?_, h.files, h.node, h.inj,
        h.writers, h.sequential.set r hsame', h.random⟩
      simp only [hread, Except.ok_bind]
      rfl
  | skip r n =>
    rw [MockEnv.perform, FileSystem.perform]
    rcases h.sequential.lookup r with ⟨hnone, hnone'⟩ | ⟨f, ⟨data, cursor⟩, hr, hr', hsame⟩
    · rw [hnone, hnone']
      exact ⟨env, rfl, h⟩
    · rw [hr, hr']
      exact ⟨_, rfl, h.files, h.node, h.inj, h.writers,
        h.sequential.set r (Simulates.skip hsame n), h.random⟩
  | readAt r offset n =>
    rw [MockEnv.perform, FileSystem.perform, h.random]
    cases fs.random[r]? with
    | none => exact ⟨env, rfl, h⟩
    | some data =>
      simp only [mockReadAt_eq]
      exact ⟨env, rfl, h⟩
  | fileExists p =>
    refine ⟨env, ?_, h⟩
    rw [MockEnv.perform, FileSystem.perform, h.fileExists p]
  | getFileSize p =>
    -- without the file, the mock would insert one
    obtain ⟨data, hdata⟩ := Option.isSome_iff_exists.mp hreach
    refine ⟨env, ?_, h⟩
    simp only [MockEnv.perform, h.getFileSize hdata, FileSystem.perform, hdata, Option.getD_some]
  | deleteFile p => exact ⟨_, rfl, h.delete p⟩

end Simulates

/-- **The environment is the file system**, in every run in which a writer is not used once
its file is deleted (`hused`), sizes are asked and sequential readers opened where there is
a file, and nothing is read behind an end (`hreach`). Such a run does not fault, its answers
are those of the file system, and so is what exists at its end. Both conditions are on the
states of the file system, before each call. -/
theorem mock_agrees (ops : List FileOp)
    (hused : FileSystem.system.Along (fun _ => FileSystem.WellUsed) [] .empty ops)
    (hreach : FileSystem.system.Along (fun _ => FileSystem.InReach) [] .empty ops) :
    ∃ env fs, MockEnv.system.run .new ops = .ok env ∧
      FileSystem.system.run .empty ops = .ok fs ∧
      MockEnv.system.trace .new ops = FileSystem.system.trace .empty ops ∧
      ∀ p, env.fileExists p = (fs.files p).isSome ∧
        ∀ data, fs.files p = some data → env.getFileSize p = (env, data.length) := by
  have hstep : ∀ (tr : List Answer) env fs op, Simulates env fs →
      (fs.WellUsed op ∧ fs.InReach op) →
      ∃ env' fs', MockEnv.system.step env op = .ok env' ∧ FileSystem.system.step fs op = .ok fs' ∧
        MockEnv.system.emit env op = FileSystem.system.emit fs op ∧ Simulates env' fs' := by
    intro _ env fs op hsim hcond
    obtain ⟨env', hperform, hsim'⟩ := hsim.perform hcond.1 hcond.2
    refine ⟨env', _, ?_, rfl, ?_, hsim'⟩
    · show (env.perform op).map Prod.fst = _
      rw [hperform]
      rfl
    · show env.answers op = _
      rw [MockEnv.answers, hperform]
      rfl
  obtain ⟨env, fs, henv, hfs, htrace, h⟩ :=
    System.run_simulation hstep .empty (hused.and hreach)
  exact ⟨env, fs, henv, hfs, htrace, fun p => ⟨h.fileExists p, fun data hdata => h.getFileSize hdata⟩⟩

/-- A file that is written, read in parts and deleted. -/
def readInParts : List FileOp :=
  [.newWritableFile [1], .append 0 [7, 8, 9], .newSequentialFile [1], .read 0 2, .skip 0 1,
    .read 0 5, .getFileSize [1], .deleteFile [1], .fileExists [1]]

/-- All of it is in reach, the read at the end included. -/
theorem mock_agrees_readInParts :
    (FileSystem.system.Along (fun _ => FileSystem.WellUsed) [] .empty readInParts ∧
      FileSystem.system.Along (fun _ => FileSystem.InReach) [] .empty readInParts) ∧
      MockEnv.system.trace .new readInParts =
        [.done, .done, .done, .bytes [7, 8], .done, .bytes [], .size 3, .done, .found false] := by
  have hused : FileSystem.system.Along (fun _ => FileSystem.WellUsed) [] .empty readInParts := by
    decide +kernel
  have hreach : FileSystem.system.Along (fun _ => FileSystem.InReach) [] .empty readInParts := by
    decide +kernel
  obtain ⟨-, -, -, -, htrace, -⟩ := mock_agrees readInParts hused hreach
  exact ⟨⟨hused, hreach⟩, htrace.trans (by decide +kernel)⟩

/-- **Two calls part from the file system**: a size that is asked too early makes the file
exist, and a read behind the end leaves the string. -/
theorem mock_diverges :
    (MockEnv.system.trace .new [.getFileSize [1], .fileExists [1]] = [.size 0, .found true] ∧
      FileSystem.system.trace .empty [.getFileSize [1], .fileExists [1]] =
        [.size 0, .found false]) ∧
    MockEnv.system.run .new [.newWritableFile [1], .append 0 [7], .newSequentialFile [1],
        .skip 0 2, .read 0 1] = .error .outOfBounds ∧
      FileSystem.system.trace .empty [.newWritableFile [1], .append 0 [7],
        .newSequentialFile [1], .skip 0 2, .read 0 1] = [.done, .done, .done, .done, .bytes []] :=
  ⟨⟨by decide, by decide⟩, rfl, by decide⟩

end Zenith
