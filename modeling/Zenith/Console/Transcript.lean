import Zenith.Console.Main
import Zenith.DB.SingleNode

/-!
# Zenith — what the console prints

The console over a database prints what it would print over a sorted map from keys to
values: for every input, however the background worker is scheduled between and beside the
commands, and in whatever order the threads of a stress test take their turns.

The proof is a simulation. `Stands` relates the database to the map: the database has
performed some local writes, and the map shows the last value of each key. One command
prints the same on both sides and keeps them in this relation (`command_spec`); the loop is
an induction on the lines. All that is needed of the database is what `SingleNode` says
about local writes, namely that point reads and scans are functions of the list of writes.

The puts of a stress test come in no fixed order. They end in the same map because each key
is put by one thread, with one value (`pool_single`), and because interleaving lists
permutes them (`writes_interleave`).

The program opens `./mydb`, and the result is about one whose directory is empty: over a
directory that was left by an earlier process the clock starts again, and a tombstone or a
later clock in a table can hide what is put. The bound on the input keeps keys and values
within their length fields and the number of puts below `2 ^ 64`, a stress test making 20000
of them.

Main result: `console_transcript`.
-/

namespace Zenith

open Bytes

namespace Console

open ZenithDB

-- ---------------------------------------------------------------------------
-- The abstract store
-- ---------------------------------------------------------------------------

/-- A put of the empty value takes the key out. -/
def assign (m : SortedMap Bytes Bytes) (kv : Entry) : SortedMap Bytes Bytes :=
  if kv.2 = [] then m.erase kv.1 else m.insert kv.1 kv.2

/-- The map that the console is about. A scan is a filter of its rows, and a stress test
puts the lists one after the other. -/
def table : Store (SortedMap Bytes Bytes) where
  put m key value := .ok (assign m (key, value))
  remove m key := .ok (assign m (key, []))
  get m key := .ok (m, m.get? key)
  scan m start stop :=
    .ok (m, m.toList.filter fun kv => decide (start ≤ kv.1) && decide (kv.1 ≤ stop))
  spawn m threads := .ok (threads.flatten.foldl assign m)

/-- The map shows the last values of the writes. -/
def Shows (m : SortedMap Bytes Bytes) (w : List Entry) : Prop := ∀ key, m.get? key = visible w key

theorem shows_nil : Shows .empty [] := fun _ => rfl

/-- Reading back what was assigned: the value, unless it is empty. -/
theorem get?_assign (m : SortedMap Bytes Bytes) (kv : Entry) (key : Bytes) :
    (assign m kv).get? key =
      if key = kv.1 then (some kv.2).filter (fun v => decide (v ≠ [])) else m.get? key := by
  unfold assign
  by_cases hnil : kv.2 = []
  · rw [if_pos hnil, SortedMap.get?_erase, hnil]
    simp [Option.filter]
  · rw [if_neg hnil, SortedMap.get?_insert]
    simp [Option.filter, hnil]

theorem Shows.assign {m : SortedMap Bytes Bytes} {w : List Entry} (h : Shows m w) (kv : Entry) :
    Shows (assign m kv) (w ++ [kv]) := by
  intro key
  rw [get?_assign, visible, History.last_append_singleton]
  split
  · rfl
  · exact h key

/-- A list of puts, by induction on it. -/
theorem Shows.assignAll {m : SortedMap Bytes Bytes} {w : List Entry} (h : Shows m w)
    (kvs : List Entry) : Shows (kvs.foldl Console.assign m) (w ++ kvs) := by
  induction kvs generalizing m w with
  | nil => rwa [List.append_nil]
  | cons kv kvs ih =>
    have hrest := ih (h.assign kv)
    rwa [List.append_assoc] at hrest

/-- The rows that a scan of the database returns are those of the map. -/
theorem Shows.rows {m : SortedMap Bytes Bytes} {w : List Entry} (h : Shows m w)
    {start stop : Bytes} {out : List Entry} (hsorted : (out.map Prod.fst).Pairwise (· < ·))
    (hout : ∀ key value, (key, value) ∈ out ↔
      start ≤ key ∧ key ≤ stop ∧ visible w key = some value) :
    out = m.toList.filter fun kv => decide (start ≤ kv.1) && decide (kv.1 ≤ stop) := by
  -- two sorted lists with the same members are one map
  have hfilter := m.sorted.filter fun kv => decide (start ≤ kv.1) && decide (kv.1 ≤ stop)
  have hmaps : (⟨out, List.pairwise_map.mp hsorted⟩ : SortedMap Bytes Bytes) = ⟨_, hfilter⟩ := by
    apply SortedMap.ext_get?
    intro key
    apply Option.ext
    intro value
    rw [SortedMap.get?_eq_some_iff, SortedMap.get?_eq_some_iff, hout, List.mem_filter,
      ← SortedMap.get?_eq_some_iff (m := m), h key]
    simp only [Bool.and_eq_true, decide_eq_true_eq]
    tauto
  exact congrArg SortedMap.toList hmaps

-- ---------------------------------------------------------------------------
-- Concurrent writers
-- ---------------------------------------------------------------------------

/-- Taking the first entry of one list takes it out of all of them. -/
theorem perm_flatten_set {lists : List (List Entry)} {i : Nat} {kv : Entry} {more : List Entry}
    (h : lists[i]? = some (kv :: more)) :
    lists.flatten.Perm (kv :: (lists.set i more).flatten) := by
  induction lists generalizing i with
  | nil => exact absurd h (by simp)
  | cons first rest ih =>
    cases i with
    | zero =>
      obtain rfl := Option.some.inj h
      exact .refl _
    | succ i =>
      rw [List.set_cons_succ, List.flatten_cons, List.flatten_cons]
      exact ((ih h).append_left first).trans List.perm_middle

/-- **Interleaving.** Whatever the schedule, the threads put their lists, in some order. -/
theorem writes_interleave (usage : Nat) (lists : List (List Entry)) (picks : List Pick) :
    (∀ a ∈ interleave usage lists picks, a.Local) ∧
      (writes (interleave usage lists picks)).Perm lists.flatten := by
  induction picks generalizing lists with
  | nil =>
    constructor
    · intro a ha
      obtain ⟨kv, -, rfl⟩ := List.mem_map.mp ha
      trivial
    · rw [interleave, writes, List.flatMap_map]
      exact .of_eq (List.flatMap_singleton' _)
  | cons pick picks ih =>
    -- a step of the worker writes nothing; the put of a thread is the first entry of its list
    cases pick with
    | worker time =>
      obtain ⟨hlocal, hperm⟩ := ih lists
      exact ⟨List.forall_mem_cons.mpr ⟨trivial, hlocal⟩, hperm⟩
    | thread i size =>
      rw [interleave]
      split
      · next kv more hi =>
        obtain ⟨hlocal, hperm⟩ := ih (lists.set i more)
        exact ⟨List.forall_mem_cons.mpr ⟨trivial, hlocal⟩,
          (hperm.cons kv).trans (perm_flatten_set hi).symm⟩
      · exact ih lists

/-- A key of a stress test tells which thread it is from. -/
theorem stressKey_inj {id i id' i' : Nat} (h : stressKey id i = stressKey id' i') : id = id' := by
  unfold stressKey at h
  -- the number of the thread ends at the colon, which is no digit
  have hstop : ∀ s : Bytes, ∀ b ∈ (ascii ":k" ++ s).head?, Text.isDigit b = false := by
    intro s b hb
    rw [show ascii ":k" ++ s = 58 :: 107 :: s from rfl] at hb
    rw [← Option.some.inj hb]
    rfl
  exact (Text.decimal_append_inj (hstop _) (hstop _) (List.append_cancel_left h)).1

theorem mem_pool {kv : Entry} (h : kv ∈ pool.flatten) :
    ∃ id < threads, ∃ i < opsPerThread, kv = (stressKey id i, stressValue id) := by
  obtain ⟨list, hlist, hkv⟩ := List.mem_flatten.mp h
  obtain ⟨id, hid, rfl⟩ := List.mem_map.mp hlist
  obtain ⟨i, hi, rfl⟩ := List.mem_map.mp hkv
  exact ⟨id, List.mem_range.mp hid, i, List.mem_range.mp hi, rfl⟩

/-- A stress test puts no key with two values. -/
theorem pool_single (key v u : Bytes) (hv : (key, v) ∈ pool.flatten)
    (hu : (key, u) ∈ pool.flatten) : v = u := by
  obtain ⟨id, -, i, -, hkv⟩ := mem_pool hv
  obtain ⟨id', -, i', -, hku⟩ := mem_pool hu
  obtain ⟨rfl, rfl⟩ := Prod.mk.inj hkv
  obtain ⟨hkey, rfl⟩ := Prod.mk.inj hku
  rw [stressKey_inj hkey]

theorem length_writerThread (id count : Nat) : (writerThread id count).length = count := by
  rw [writerThread, List.length_map, List.length_range]

theorem length_writerThreads (n count : Nat) :
    ((List.range n).map fun id => writerThread id count).flatten.length = n * count := by
  have hlengths : ((List.range n).map fun id => writerThread id count).map List.length =
      (List.range n).map fun _ => count := by
    rw [List.map_map]
    exact List.map_congr_left fun id _ => length_writerThread id count
  rw [List.length_flatten, hlengths, List.map_const', List.length_range, List.sum_replicate,
    smul_eq_mul]

theorem length_pool : pool.flatten.length = threads * opsPerThread :=
  length_writerThreads threads opsPerThread

/-- A number has no more digits than its value and one; this is enough for the keys of a
stress test. -/
theorem length_decimal_le (n : Nat) : (Text.decimal n).length ≤ n + 1 := by
  induction n using Text.decimal.induct with
  | case1 n h =>
    rw [Text.decimal, if_pos h]
    exact Nat.le_add_left 1 n
  | case2 n h ih =>
    rw [Text.decimal, if_neg h, List.length_append, List.length_singleton]
    omega

/-- What a stress test puts fits with room to spare. -/
theorem pool_small {kv : Entry} (h : kv ∈ pool.flatten) : kv.1.length + kv.2.length < 2 ^ 31 := by
  obtain ⟨id, hid, i, hi, rfl⟩ := mem_pool h
  have hidLength := length_decimal_le id
  have hiLength := length_decimal_le i
  have hkey : (stressKey id i).length =
      7 + ((Text.decimal id).length + (2 + (Text.decimal i).length)) := by
    rw [stressKey, List.length_append, List.length_append, List.length_append]
    rfl
  have hvalue : (stressValue id).length = 18 + (Text.decimal id).length := by
    rw [stressValue, List.length_append]
    rfl
  unfold threads at hid
  unfold opsPerThread at hi
  rw [hkey, hvalue]
  omega

-- ---------------------------------------------------------------------------
-- The simulation
-- ---------------------------------------------------------------------------

/-- `node1` -/
def node : NodeID := ascii "node1"

/-- The database holds at most `n` writes, and the map shows what they say. The number is
kept to know that the counter of the clock does not wrap around, the lengths to know that
each record fits. -/
def Stands (n : Nat) (s : Running) (m : SortedMap Bytes Bytes) : Prop :=
  ∃ w, Solo node w s.db ∧ Shows m w ∧ w.length ≤ n ∧ ∀ kv ∈ w, kv.1.length + kv.2.length < 2 ^ 31

variable {n : Nat} {s : Running} {m : SortedMap Bytes Bytes} {p : Platform}

theorem Stands.mono {n' : Nat} (h : Stands n s m) (hle : n ≤ n') : Stands n' s m := by
  obtain ⟨w, hsolo, hshows, hlength, hsmall⟩ := h
  exact ⟨w, hsolo, hshows, hlength.trans hle, hsmall⟩

theorem sized_of_small {w : List Entry} (hlength : w.length < 2 ^ 64)
    (hsmall : ∀ kv ∈ w, kv.1.length + kv.2.length < 2 ^ 31) : Sized node w := by
  refine ⟨hlength, fun kv hkv => ?_⟩
  have hnode : node.length = 5 := rfl
  have := hsmall kv hkv
  omega

/-- Local actions after any writes, by induction on the actions. -/
theorem solo_actions {w : List Entry} {db : ZenithDB} (h : Solo node w db) {as : List Action}
    (hlocal : ∀ a ∈ as, a.Local) (hw : Sized node (w ++ writes as)) :
    ((system p).run db as).Post (Solo node (w ++ writes as)) WriteFailed := by
  -- w lists the writes so far, and the sizes are bounded over these and all that are to come
  induction as generalizing w db with
  | nil =>
    rw [writes, List.flatMap_nil, List.append_nil]
    exact h
  | cons a as ih =>
    obtain ⟨ha, has⟩ := List.forall_mem_cons.mp hlocal
    have hsplit : w ++ writes (a :: as) = (w ++ a.written) ++ writes as := by
      rw [writes, List.flatMap_cons, List.append_assoc]
      rfl
    rw [hsplit] at hw ⊢
    have hfirst : Sized node (w ++ a.written) := by
      refine ⟨?_, fun kv hkv => hw.2 kv (List.mem_append_left _ hkv)⟩
      have hlength := hw.1
      rw [List.length_append] at hlength
      omega
    have hstep := h.step p ha hfirst
    cases hok : ZenithDB.step p db a with
    | error f =>
      rw [hok] at hstep
      rw [System.run_cons_error (S := system p) hok]
      exact hstep
    | ok db' =>
      rw [hok] at hstep
      rw [System.run_cons_ok (S := system p) hok]
      exact ih hstep has hw

/-- **One operation.** What it puts, in any order, is assigned in the map. That no key is
put with two values (`hone`) makes the order of the puts invisible. -/
theorem perform_spec (h : Stands n s m) {actions : Turn → List Action} {kvs : List Entry}
    (hlocal : ∀ t, ∀ a ∈ actions t, a.Local) (hperm : ∀ t, (writes (actions t)).Perm kvs)
    (hone : ∀ k v u, (k, v) ∈ kvs → (k, u) ∈ kvs → v = u)
    (hsmall : ∀ kv ∈ kvs, kv.1.length + kv.2.length < 2 ^ 31) (hcount : n + kvs.length < 2 ^ 64) :
    (s.perform p actions).Post (fun s' => Stands (n + kvs.length) s' (kvs.foldl assign m))
      WriteFailed := by
  obtain ⟨w, hsolo, hshows, hlength, hold⟩ := h
  unfold Running.perform
  generalize s.turns.headD ⟨[], 0, []⟩ = turn
  -- the steps of the worker before the operation write nothing
  have hwrites : writes (turn.background.map .work ++ actions turn) = writes (actions turn) := by
    have hnone : writes (turn.background.map .work) = [] := by
      rw [writes, List.flatMap_map]
      exact List.flatMap_eq_nil_iff.mpr fun _ _ => rfl
    rw [writes, List.flatMap_append, ← writes, hnone, List.nil_append]
    rfl
  have hnew : ∀ kv ∈ w ++ writes (actions turn), kv.1.length + kv.2.length < 2 ^ 31 :=
    List.forall_mem_append.mpr ⟨hold, fun kv hkv => hsmall kv ((hperm turn).mem_iff.mp hkv)⟩
  have htotal : (w ++ writes (actions turn)).length ≤ n + kvs.length := by
    rw [List.length_append, (hperm turn).length_eq]
    exact Nat.add_le_add_right hlength _
  have hall : ∀ a ∈ turn.background.map Action.work ++ actions turn, a.Local := by
    refine List.forall_mem_append.mpr ⟨fun a ha => ?_, hlocal turn⟩
    obtain ⟨time, -, rfl⟩ := List.mem_map.mp ha
    trivial
  have hrun := solo_actions (p := p) hsolo hall
    (by rw [hwrites]; exact sized_of_small (htotal.trans_lt hcount) hnew)
  rw [hwrites] at hrun
  apply Except.Post.bind hrun
  intro db hdb
  refine ⟨_, hdb, fun key => ?_, htotal, hnew⟩
  -- the order of the puts does not show
  rw [(hshows.assignAll kvs) key, visible, visible, History.last_append, History.last_append,
    History.last_perm (hperm turn) (fun k v u hv hu => hone k v u ((hperm turn).mem_iff.mp hv)
      ((hperm turn).mem_iff.mp hu))]

/-- An operation that puts one entry. -/
theorem perform_put (h : Stands n s m) {key value : Bytes}
    (hsmall : key.length + value.length < 2 ^ 31) (hcount : n + 1 < 2 ^ 64) :
    (s.perform p fun turn => [.put turn.usage key value]).Post
      (fun s' => Stands (n + 1) s' (assign m (key, value))) WriteFailed := by
  have hlocal : ∀ t : Turn, ∀ a ∈ [Action.put t.usage key value], a.Local := by
    intro t a ha
    rw [List.mem_singleton.mp ha]
    trivial
  have hperm : ∀ t : Turn, (writes [Action.put t.usage key value]).Perm [(key, value)] :=
    fun _ => .refl _
  have hone : ∀ k v u, (k, v) ∈ [(key, value)] → (k, u) ∈ [(key, value)] → v = u := by
    intro k v u hv hu
    rw [(Prod.mk.inj (List.mem_singleton.mp hv)).2, (Prod.mk.inj (List.mem_singleton.mp hu)).2]
  exact perform_spec h hlocal hperm hone (List.forall_mem_singleton.mpr hsmall) hcount

/-- An operation that puts nothing. -/
theorem perform_none (h : Stands n s m) (hcount : n < 2 ^ 64) :
    (s.perform p fun _ => []).Post (fun s' => Stands n s' m) WriteFailed :=
  perform_spec (p := p) h (fun _ _ ha => absurd ha List.not_mem_nil) (fun _ => .refl [])
    (fun _ _ _ hv _ => absurd hv List.not_mem_nil) (fun _ hkv => absurd hkv List.not_mem_nil) hcount

/-- A stress test. -/
theorem perform_pool (h : Stands n s m) (hcount : n + threads * opsPerThread < 2 ^ 64) :
    (s.perform p fun turn => interleave turn.usage pool turn.picks).Post
      (fun s' => Stands (n + threads * opsPerThread) s' (pool.flatten.foldl assign m))
      WriteFailed := by
  rw [← length_pool] at hcount ⊢
  exact perform_spec h (fun t => (writes_interleave t.usage pool t.picks).1)
    (fun t => (writes_interleave t.usage pool t.picks).2) pool_single (fun _ => pool_small) hcount

theorem database_get (h : Stands n s m) (hcount : n < 2 ^ 64) (key : Bytes) :
    ((database p).get s key).Post (fun r => Stands n r.1 m ∧ m.get? key = r.2) WriteFailed := by
  apply (perform_none h hcount).bind
  intro s' hs'
  obtain ⟨w, hsolo, hshows, hlength, hsmall⟩ := hs'
  rw [hsolo.get (sized_of_small (hlength.trans_lt hcount) hsmall) key]
  exact ⟨⟨w, hsolo, hshows, hlength, hsmall⟩, hshows key⟩

theorem database_scan (h : Stands n s m) (hcount : n < 2 ^ 64) (start stop : Bytes) :
    ((database p).scan s start stop).Post (fun r => Stands n r.1 m ∧
        r.2 = m.toList.filter fun kv => decide (start ≤ kv.1) && decide (kv.1 ≤ stop))
      WriteFailed := by
  apply (perform_none h hcount).bind
  intro s' hs'
  obtain ⟨w, hsolo, hshows, hlength, hsmall⟩ := hs'
  obtain ⟨out, hscan, hsorted, hout⟩ :=
    hsolo.scan (sized_of_small (hlength.trans_lt hcount) hsmall) p start stop
  rw [hscan]
  exact ⟨⟨w, hsolo, hshows, hlength, hsmall⟩, hshows.rows hsorted hout⟩

theorem table_get (m : SortedMap Bytes Bytes) (key : Bytes) :
    table.get m key = .ok (m, m.get? key) := rfl

-- ---------------------------------------------------------------------------
-- Commands and lines
-- ---------------------------------------------------------------------------

theorem readToken_length {line token rest : Bytes} (h : readToken line = (token, rest)) :
    token.length + rest.length ≤ line.length := by
  unfold readToken at h
  cases hnext : Text.nextToken line with
  | none =>
    rw [hnext] at h
    obtain ⟨rfl, rfl⟩ := Prod.mk.inj h
    exact Nat.zero_le _
  | some read =>
    rw [hnext] at h
    obtain rfl := (show read = (token, rest) from h)
    exact Text.nextToken_length hnext

/-- The writes that one command makes at most: those of a stress test. -/
def perCommand : Nat := threads * opsPerThread

/-- **One command** prints what it prints over the map, and keeps them in step. The cases
are the commands in the order in which the source compares them. -/
theorem command_spec (h : Stands n s m) {line : Bytes} (hline : line.length < 2 ^ 31)
    (hcount : n + perCommand < 2 ^ 64) :
    (command (database p) s line).Post (fun r => ∃ m', command table m line = .ok (m', r.2) ∧
      Stands (n + perCommand) r.1 m') WriteFailed := by
  have hone : 1 ≤ perCommand := by decide
  -- a command takes at most perCommand increments of the clock, most take none or one
  have hkeep : ∀ {s' m'}, Stands n s' m' → Stands (n + perCommand) s' m' :=
    fun h => h.mono (Nat.le_add_right ..)
  have hnext : ∀ {s' m'}, Stands (n + 1) s' m' → Stands (n + perCommand) s' m' :=
    fun h => h.mono (Nat.add_le_add_left hone n)
  have hn : n < 2 ^ 64 := by omega
  unfold command
  rcases hcmd : readToken line with ⟨cmd, rest⟩
  rcases hkey : readToken rest with ⟨key, rest'⟩
  rcases hstop : readToken rest' with ⟨stop, rest''⟩
  have hlength := readToken_length hcmd
  have hlength' := readToken_length hkey
  simp only [hkey, hstop]
  by_cases hput : cmd = ascii "put"
  · simp only [if_pos hput]
    by_cases hnil : key = []
    · simp only [if_pos hnil]
      exact ⟨m, rfl, hkeep h⟩
    · simp only [if_neg hnil]
      have hrest : (restOfLine rest').length ≤ rest'.length := List.length_dropWhile_le ..
      exact (perform_put h (by omega) (by omega)).bind fun s' hs' => ⟨_, rfl, hnext hs'⟩
  simp only [if_neg hput]
  by_cases hget : cmd = ascii "get"
  · simp only [if_pos hget]
    by_cases hnil : key = []
    · simp only [if_pos hnil]
      exact ⟨m, rfl, hkeep h⟩
    · simp only [if_neg hnil]
      apply (database_get h hn key).bind
      rintro ⟨s', _ | value⟩ ⟨hs', hfound⟩
      · refine ⟨m, ?_, hkeep hs'⟩
        rw [table_get, show m.get? key = none from hfound]
        rfl
      · refine ⟨m, ?_, hkeep hs'⟩
        rw [table_get, show m.get? key = some value from hfound]
        rfl
  simp only [if_neg hget]
  by_cases hdel : cmd = ascii "del"
  · simp only [if_pos hdel]
    by_cases hnil : key = []
    · simp only [if_pos hnil]
      exact ⟨m, rfl, hkeep h⟩
    · simp only [if_neg hnil]
      have hempty : key.length + ([] : Bytes).length < 2 ^ 31 := by
        rw [List.length_nil]
        omega
      exact (perform_put h hempty (by omega)).bind fun s' hs' => ⟨_, rfl, hnext hs'⟩
  simp only [if_neg hdel]
  by_cases hscan : cmd = ascii "scan"
  · simp only [if_pos hscan]
    apply (database_scan h hn key (if stop = [] then lastKey else stop)).bind
    rintro ⟨s', results⟩ ⟨hs', rfl⟩
    exact ⟨m, rfl, hkeep hs'⟩
  simp only [if_neg hscan]
  by_cases hstress : cmd = ascii "stress"
  · simp only [if_pos hstress]
    exact (perform_pool h hcount).bind fun s' hs' => ⟨_, rfl, hs'⟩
  simp only [if_neg hstress]
  exact ⟨m, rfl, hkeep h⟩

/-- The loop, by induction on the lines. When a write to the disk fails the program ends
there, with what it has printed. -/
theorem loop_spec (lines : List Bytes) (h : Stands n s m)
    (hlines : ∀ line ∈ lines, line.length < 2 ^ 31)
    (hcount : n + perCommand * lines.length < 2 ^ 64) :
    (loop (database p) s lines).Post (fun out => loop table m lines = .ok out) WriteFailed := by
  -- the loop goes on behind an empty line, stops at exit or quit, else runs the command
  induction lines generalizing n s m with
  | nil => exact rfl
  | cons line lines ih =>
    obtain ⟨hline, hlines⟩ := List.forall_mem_cons.mp hlines
    rw [List.length_cons, Nat.mul_succ] at hcount
    unfold loop
    by_cases hempty : line = []
    · simp only [if_pos hempty]
      apply (ih h hlines (by omega)).bind
      intro out hout
      rw [hout]
      exact rfl
    simp only [if_neg hempty]
    by_cases hexit : line = ascii "exit" ∨ line = ascii "quit"
    · simp only [if_pos hexit]
      exact rfl
    simp only [if_neg hexit]
    apply (command_spec h hline (by omega)).bind
    rintro ⟨s', printed⟩ ⟨m', hcommand, hs'⟩
    apply (ih hs' hlines (by omega)).bind
    intro out hout
    rw [hcommand, Except.ok_bind]
    simp only [hout]
    exact rfl

/-- **The console.** For every input, whatever the worker does between and beside the
commands and whichever thread of a stress test goes next, the program prints what it would
print over a map, unless a write to the disk fails.

The directory `./mydb` is empty at the start, which makes the writes of this process the
only ones: over an old directory a new put may be hidden behind a register with a later
clock. The input is shorter than `2 ^ 31` bytes (`hinput`), which bounds what is written and
how often: each write fits its length fields, and the counter does not wrap. -/
theorem console_transcript (p : Platform) (counter : Nat) (turns : List Turn) (input : Bytes)
    (hinput : input.length < 2 ^ 31) :
    (main (database p) ⟨fresh node counter, turns⟩ input).Post
      (fun out => main table .empty input = .ok out) WriteFailed := by
  have hstart : Stands 0 ⟨fresh node counter, turns⟩ .empty :=
    ⟨[], solo_fresh node counter, shows_nil, Nat.le_refl 0,
      fun _ hkv => absurd hkv List.not_mem_nil⟩
  obtain ⟨hnumber, hlength⟩ := Lines.length_fieldsFrom_le Lines.newline [] input
  rw [List.length_nil, Nat.zero_add] at hnumber hlength
  have hper : perCommand = 20000 := rfl
  have hloop := loop_spec (p := p) (Lines.fields Lines.newline input) hstart
    (fun line hline => (hlength line hline).trans_lt hinput)
    (by rw [hper]; unfold Lines.fields; omega)
  unfold main
  apply hloop.bind
  intro out hout
  rw [hout]
  exact rfl

/-- A put that rotates, with the worker at it before the next command, and a scan. -/
theorem console_transcript_three_lines :
    (main (database .stable)
        ⟨fresh node 0, [⟨[], 200000, []⟩, ⟨[fun _ => 0], 0, []⟩, ⟨[], 0, []⟩]⟩
        (textLine "put a  1" ++ textLine "put b 2" ++ ascii "scan a b")).Post
      (fun out => main table .empty
        (textLine "put a  1" ++ textLine "put b 2" ++ ascii "scan a b") = .ok out) WriteFailed :=
  console_transcript .stable 0 _ _ (by decide)

/-- What that is. -/
example : main table .empty (textLine "put a  1" ++ textLine "put b 2" ++ ascii "scan a b") =
    .ok (banner ++ (ascii "> " ++ (textLine "OK" ++ (ascii "> " ++ (textLine "OK" ++ (ascii "> " ++
      (textLine "a -> 1" ++ textLine "b -> 2" ++ (ascii "> " ++ textLine "Bye!")))))))) := by
  decide +kernel

end Console

end Zenith
