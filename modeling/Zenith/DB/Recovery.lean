import Zenith.DB.History

/-!
# Zenith — recovery from the log

What `WAL::replay` gives back after a run that started with an empty log. The log frames
binary records as text: a line is `PUT`, a bar, the key, a bar and the bytes of the
register. It is cut at newlines and split at bars, and nothing escapes the two. So it is
exact as long as no record contains a framing byte, and fails with the first record that
does, in the very state in which that record is the last one.

`Wal.Clean` is this condition on a record. It does not depend on the run: a record is clean
or not by its own bytes. A value with a bar is not clean, and the record of the tenth local
write is not, because its clock holds the byte of a newline.

The statement is about every prefix of a run, since a crash can come at any moment. Replay
at the end of a run alone could be exact in spite of a broken record, namely when the record
is overwritten later.

Main result: `recovery_exact_iff`.
-/

namespace Zenith

open Bytes

namespace ZenithDB

/-- A memtable that takes records one after the other shows the last one of each key, by
induction on them. -/
theorem get_foldl_put (rs : List Entry) (mt : MemTable) (key : Bytes) :
    (rs.foldl (fun m r => m.put r.1 r.2) mt).get key =
      (History.last key rs).or (mt.get key) := by
  induction rs using List.reverseRecOn with
  | nil => rfl
  | append_singleton rs r ih =>
    rw [List.foldl_append, List.foldl_cons, List.foldl_nil, MemTable.get_put, ih,
      History.last_append_singleton]
    by_cases hk : key = r.1
    · rw [if_pos hk, if_pos hk]
      rfl
    · rw [if_neg hk, if_neg hk]

/-- A log of clean records is replayed to the last record of each key. -/
theorem replayLog_of_clean {p : Platform} {disk : Disk} {rs : List Entry}
    (hwal : disk.wal = rs.flatMap Wal.encodeRecord) (hclean : ∀ r ∈ rs, Wal.Clean r)
    (hne : ∀ r ∈ rs, r.2 ≠ []) (key : Bytes) :
    (replayLog p disk).get key = History.last key rs := by
  have hlog : (p.readChunks 8192 disk.wal).flatten = rs.flatMap Wal.encodeRecord := by
    rw [p.readChunks_flatten, hwal]
  unfold replayLog
  rw [Wal.replay_encodeRecords hclean hne (p.readChunks_ne _ _) hlog, get_foldl_put,
    MemTable.get_new, Option.or_none]

/-- **Recovery is exact** at every moment of a run that starts with an empty log if and only
if the run stores only clean records. Exact means that the memtable replayed from the log
has for each key the record stored last, and no others.

Besides the empty log (`hempty`) nothing is assumed of the database, and of the run only
that it does not stop (`hrun`). `replayLog` reads the log in whatever chunks the platform
gives. -/
theorem recovery_exact_iff {p : Platform} {db db' : ZenithDB} {as : List Action}
    (hempty : db.disk.wal = []) (hrun : (system p).run db as = .ok db') :
    (∀ before after mid, as = before ++ after → (system p).run db before = .ok mid →
        ∀ key, (replayLog p mid.disk).get key =
          History.last key ((system p).trace db before)) ↔
      ∀ r ∈ (system p).trace db as, Wal.Clean r := by
  constructor
  · intro hexact r hr
    obtain ⟨before, a, after, t, t', has, hbefore, hstep, hmem⟩ := System.mem_trace hrun hr
    have hnext : (system p).run db (before ++ [a]) = .ok t' := by
      rw [System.run_append hbefore, System.run_cons_ok hstep]
      rfl
    have htrace : (system p).trace db (before ++ [a]) =
        (system p).trace db before ++ (system p).emit t a := by
      rw [System.trace_append hbefore, System.trace_cons_ok hstep, System.trace_nil,
        List.append_nil]
    -- right after its step, the record is the last one of its key
    have hlast : History.last r.1 ((system p).trace db (before ++ [a])) = some r.2 := by
      rw [htrace]
      have heffect := step_effect hstep
      generalize (system p).emit t a = records at hmem heffect
      cases heffect with
      | quiet hmem' hwal => exact absurd hmem List.not_mem_nil
      | store clock usage k reg heq =>
        rw [List.mem_singleton.mp hmem, History.last_append_singleton, if_pos rfl]
    have hget := hexact (before ++ [a]) after t' (by rw [has, List.append_assoc]; rfl) hnext r.1
    rw [hlast] at hget
    exact Wal.clean_of_replay (p.readChunks_ne _ _) hget
  -- a prefix of a run of clean records is one
  · intro hclean before after mid has hbefore key
    have hwal := wal_run hbefore
    rw [hempty, List.nil_append] at hwal
    apply replayLog_of_clean hwal
    · intro r hr
      apply hclean
      rw [has, System.trace_append hbefore]
      exact List.mem_append_left _ hr
    · intro r hr
      obtain ⟨reg, hreg⟩ := stored_serialize hbefore hr
      rw [hreg]
      exact reg.serialize_ne_nil

/-- A run of a local write, a remote one and a delete. -/
theorem recovery_exact_iff_three_writes :
    ∃ db, (system .stable).run (fresh [65] 0)
        [.put 0 [107] [118], .putCrdt 0 [108] ⟨[119], VectorClock.empty.increment [66]⟩,
          .put 0 [107] []] = .ok db ∧
      ∀ before after mid,
        [Action.put 0 [107] [118], .putCrdt 0 [108] ⟨[119], VectorClock.empty.increment [66]⟩,
          .put 0 [107] []] = before ++ after →
        (system .stable).run (fresh [65] 0) before = .ok mid →
        ∀ key, (replayLog .stable mid.disk).get key =
          History.last key ((system .stable).trace (fresh [65] 0) before) := by
  obtain ⟨db, hrun⟩ := Except.exists_eq_ok (x := (system .stable).run (fresh [65] 0)
    [.put 0 [107] [118], .putCrdt 0 [108] ⟨[119], VectorClock.empty.increment [66]⟩,
      .put 0 [107] []]) (by decide +kernel)
  exact ⟨db, hrun, (recovery_exact_iff rfl hrun).mpr (by decide +kernel)⟩

/-- The value `a|b` is not recovered: its record has a third `|`. -/
theorem recovery_loses_bar_value :
    ∃ db, (system .stable).run (fresh [65] 0) [.put 0 [107] [97, 124, 98]] = .ok db ∧
      History.last [107] ((system .stable).trace (fresh [65] 0) [.put 0 [107] [97, 124, 98]]) =
        some (LWWRegister.serialize ⟨[97, 124, 98], VectorClock.empty.increment [65]⟩) ∧
      (replayLog .stable db.disk).get [107] = none :=
  ⟨_, rfl, by decide +kernel, by decide +kernel⟩

end ZenithDB

end Zenith
