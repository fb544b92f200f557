import Zenith.SSTable.Lookup

/-!
# Zenith — range scans over a sorted table

A scan walks the index from the block that can hold its start. Like a lookup it can end at
the dangling restart of a block, and then it misses what that block holds; it never returns
a row that was not written. A scan for a single key reads what a lookup of the key reads
(`OpenedOn.scan_point`), and so a table that misses a key in lookups misses it in scans as
well.

Before it reads a block a scan looks at the key range of the table. The smallest key comes
from the index; a largest key is never there for a table with an index. A range that ends
below the smallest key is empty, and `filter_below` says that this is no loss.

`Unhidden` says of a range that no block hides entries of it. It is weaker than
`Searchable`: a scan from the empty key starts in no dangling restart, since no key is below
the empty one, and returns everything up to its bound when the index is complete. That is
why compactions, which scan from the empty key, lose nothing to the restarts of tables that
lookups can miss keys in.

The converse needs more than a missed key. Blocks that do not fit their size fields can be
read as something else, and the equivalence has to exclude that all scans come out right by
accident. No row that a scan gives out is as long as the entry that makes a block too long
(`not_mem_of_long`), whatever the bytes are decoded as.

Main results:

* `OpenedOn.scan_sublist` — a scan returns some of the stored entries in range, in order;
* `OpenedOn.scan_all` — a scan from the empty key returns all of them;
* `table_round_trip` — what the constructor and such a scan recover of a file;
* `scans_exact_iff` — every scan returns all of them if and only if the table is
  `Searchable`.
-/

namespace Zenith

open Bytes

namespace SSTable

variable {t : SSTable} {es : List Entry}

/-- No block hides entries in range: a search for `start` that may end at its
dangling restart has nothing to find in it. -/
def Unhidden (es : List Entry) (start stop : Bytes) : Prop :=
  ∀ pre b post, blocksOf es = pre ++ b :: post → dangling b (decide (post ≠ [])) = true →
    danglingKey b < start → b.filter (inRange start stop) = []

/-- No key is below the empty one. -/
theorem unhidden_nil (es : List Entry) (stop : Bytes) : Unhidden es [] stop :=
  fun _ _ _ _ _ hlt => absurd hlt (List.not_lt_nil _)

/-- Behind the last index entry whose key is not above `stop`, nothing is in range. -/
theorem ReadBack.filter_drop_nil (h : t.ReadBack es) {pre post : List (List Entry)}
    {b : List Entry} (hbs : blocksOf es = pre ++ b :: post) {start stop : Bytes}
    (hgt : firstKey b > stop) :
    ((b :: post).flatten).filter (inRange start stop) = [] := by
  obtain ⟨-, hb, hbsorted, -, hpost⟩ := h.entries hbs
  rw [List.filter_eq_nil_iff]
  intro e he
  have hlt : stop < e.1 := by
    rw [List.flatten_cons, List.mem_append] at he
    rcases he with he | he
    · exact hgt.trans_le (firstKey_le hbsorted he)
    · obtain ⟨x, hx, hxkey⟩ := firstKey_mem hb
      rw [← hxkey] at hgt
      exact hgt.trans (hpost x hx e he)
  simp [inRange, hlt.not_ge]

/-- The loop over the index: by induction on the index entries left. -/
theorem OpenedOn.scanIndex_spec (h : t.OpenedOn es) (start stop : Bytes)
    {ipre isuf more : List IndexEntry} (hsplit : (dataLayout es).map (·.1) = ipre ++ (isuf ++ more)) :
    ∃ rows, t.scanIndex start stop isuf = .ok rows ∧
      rows.Sublist ((((blocksOf es).drop ipre.length).flatten).filter (inRange start stop)) ∧
      (Unhidden es start stop → more = [] →
        rows = (((blocksOf es).drop ipre.length).flatten).filter (inRange start stop)) := by
  induction isuf generalizing ipre with
  | nil =>
    refine ⟨[], rfl, List.nil_sublist _, ?_⟩
    rintro - rfl
    -- no index entry is left, so no block is
    have hlen : (blocksOf es).length ≤ ipre.length := by
      have := congrArg List.length hsplit
      rw [List.length_map, dataLayout, length_layoutBlocks] at this
      simpa using this.le
    rw [List.drop_eq_nil_of_le hlen]
    rfl
  | cons ie isuf ih =>
    obtain ⟨pre, b, post, hbs, hpre, -, hmin, hsize, -, hscan⟩ := h.block hsplit
    obtain ⟨-, hb, hbsorted, -, -⟩ := h.entries hbs
    have hdrop : (blocksOf es).drop ipre.length = b :: post := by
      rw [hbs, ← hpre]
      exact List.drop_left' rfl
    rw [scanIndex, hdrop]
    -- the loop stops at the first block that starts behind the range
    by_cases hgt : ie.minKey > stop
    · rw [if_pos hgt, h.filter_drop_nil hbs (by rwa [← hmin])]
      exact ⟨[], rfl, List.nil_sublist _, fun _ _ => rfl⟩
    · obtain ⟨more', hmore, hsub, hall⟩ := @ih (ipre ++ [ie]) (by rw [hsplit]; simp)
      have hnext : (blocksOf es).drop (ipre ++ [ie]).length = post := by
        rw [List.length_append, List.length_singleton, ← List.drop_drop, hdrop]
        rfl
      rw [hnext] at hsub hall
      obtain ⟨rows, hrows, hor⟩ := scanBlock_spec hb hsize hbsorted start stop
      rw [if_neg hgt, hscan, hrows, Except.ok_bind, hmore, List.flatten_cons, List.filter_append]
      refine ⟨rows ++ more', rfl, List.Sublist.append ?_ hsub, ?_⟩
      · rcases hor with rfl | ⟨rfl, -⟩
        · exact List.Sublist.refl _
        · exact List.nil_sublist _
      · intro hclear hnil
        rw [hall hclear hnil]
        rcases hor with rfl | ⟨rfl, hdang, hlt⟩
        · rfl
        · rw [hclear pre b post hbs hdang hlt]

/-- A table without index entries has at most its first block to scan. -/
theorem OpenedOn.scan_no_index (h : t.OpenedOn es) (start stop : Bytes) :
    ∃ rows, t.scanBlock 0 start stop = .ok rows ∧
      rows.Sublist (es.filter (inRange start stop)) ∧ (es = [] → rows = []) := by
  -- without entries there is no block to read, and with some the first one is read
  by_cases hes : es = []
  · have hend : t.dataEnd = 0 := by
      rw [h.dataEnd, dataLayout, blocksOf_eq_nil.mpr hes]
      rfl
    refine ⟨[], ?_, List.nil_sublist _, fun _ => rfl⟩
    rw [scanBlock, wrapping_eq (by norm_num), if_pos (by omega)]
    rfl
  · obtain ⟨b, post, hbs⟩ := List.exists_cons_of_ne_nil (mt blocksOf_eq_nil.mp hes)
    have hfirst : (dataLayout es).map (·.1) =
        [] ++ ⟨firstKey b, 0⟩ :: ((layoutBlocks (encodeBlock b (decide (post ≠ []))).length
          post).map (·.1)) := by
      rw [dataLayout, hbs, layoutBlocks, List.map_cons, Nat.zero_add]
      rfl
    obtain ⟨pre, b', post', hbs', -, -, -, hsize, -, hscan⟩ := h.block hfirst
    obtain ⟨hflat, hb, hbsorted, -, -⟩ := h.entries hbs'
    obtain ⟨rows, hrows, hor⟩ := scanBlock_spec hb hsize hbsorted start stop
    refine ⟨rows, (hscan start stop).trans hrows, ?_, fun hnil => absurd hnil hes⟩
    rcases hor with rfl | ⟨rfl, -⟩
    · rw [hflat, List.filter_append, List.filter_append]
      exact (List.sublist_append_left _ _).trans (List.sublist_append_right _ _)
    · exact List.nil_sublist _

/-- The index is the front part of all index entries that were written. -/
theorem ReadBack.index_split (h : t.ReadBack es) :
    (dataLayout es).map (·.1) =
      t.index ++ ((dataLayout es).map (·.1)).drop ((blocksOf es).length % 2 ^ 32) := by
  rw [h.index, List.take_append_drop]

/-- Only a table without entries has an empty index, unless its blocks were too many. -/
theorem OpenedOn.index_eq_nil_iff (h : t.OpenedOn es) (hlt : (blocksOf es).length < 2 ^ 32) :
    t.index = [] ↔ es = [] := by
  rw [h.index, Nat.mod_eq_of_lt hlt, List.take_of_length_le (by simp [dataLayout,
    length_layoutBlocks]), List.map_eq_nil_iff, ← blocksOf_eq_nil, ← List.length_eq_zero_iff,
    dataLayout, length_layoutBlocks, List.length_eq_zero_iff]

/-- The walk of a scan over the index, from the block that can hold `start`. -/
theorem OpenedOn.scan_seek (h : t.OpenedOn es) (hne : t.index ≠ []) (start stop : Bytes) :
    ∃ rows, t.scanIndex start stop (seekIndex t.index start) = .ok rows ∧
      rows.Sublist (es.filter (inRange start stop)) ∧
      (Unhidden es start stop → (blocksOf es).length < 2 ^ 32 →
        rows = es.filter (inRange start stop)) := by
  obtain ⟨ipre, ie, isuf, hsplit, hseek, hbefore, -⟩ := seekIndex_spec start h.index_sorted hne
  have hall := h.index_split
  generalize hmoreDef : ((dataLayout es).map (·.1)).drop ((blocksOf es).length % 2 ^ 32) = more at hall
  rw [hsplit, List.append_assoc] at hall
  obtain ⟨rows, hrows, hsub, hexact⟩ := h.scanIndex_spec start stop hall
  obtain ⟨hflat, -⟩ := blocksOf_spec es
  refine ⟨rows, by rw [hseek, hrows], hsub.trans ?_, ?_⟩
  · conv_rhs => rw [← hflat]
    apply List.Sublist.filter
    exact List.Sublist.flatten (List.drop_sublist _ _)
  -- with a complete index nothing behind the walk is left out
  · intro hclear hlt
    have hmore : more = [] := by
      rw [← hmoreDef, List.drop_eq_nil_of_le]
      rw [Nat.mod_eq_of_lt hlt, List.length_map, dataLayout, length_layoutBlocks]
    obtain ⟨pre, b, post, hbs, hpre, -, hmin, -⟩ := h.block hall
    obtain ⟨hes, hb, -, hbelow, -⟩ := h.entries hbs
    have hdrop : (blocksOf es).drop ipre.length = b :: post := by
      rw [hbs, ← hpre]
      exact List.drop_left' rfl
    -- the blocks in front of the one the scan starts in end below `start`
    have hskipped : pre.flatten.filter (inRange start stop) = [] := by
      rw [List.filter_eq_nil_iff]
      intro e he
      rcases hbefore with hnil | hle
      · rw [hnil, List.length_nil] at hpre
        rw [List.length_eq_zero_iff.mp hpre] at he
        exact absurd he List.not_mem_nil
      · obtain ⟨x, hx, hxkey⟩ := firstKey_mem hb
        have hlt' := hbelow e he x hx
        rw [hxkey, ← hmin] at hlt'
        simp [inRange, (hlt'.trans_le hle).not_ge]
    rw [hexact hclear hmore, hdrop, List.flatten_cons]
    conv_rhs => rw [hes, List.filter_append, hskipped, List.nil_append]

/-- A range that ends below the smallest key is empty. -/
theorem ReadBack.filter_below (h : t.ReadBack es) {start stop : Bytes}
    (hmin : t.metaData.minKey ≠ []) (hlt : stop < t.metaData.minKey) :
    es.filter (inRange start stop) = [] := by
  have hne : t.index ≠ [] := by
    intro hnil
    rw [h.minKey, hnil] at hmin
    exact hmin rfl
  obtain ⟨ie, isuf, hindex⟩ := List.exists_cons_of_ne_nil hne
  have hall : (dataLayout es).map (·.1) = [] ++ ie :: (isuf ++
      ((dataLayout es).map (·.1)).drop ((blocksOf es).length % 2 ^ 32)) := by
    conv_lhs => rw [h.index_split, hindex]
    rfl
  obtain ⟨pre, b, post, -, hbs, hpre, -, hfirst, -⟩ := h.block hall
  have hpre' : pre = [] := List.length_eq_zero_iff.mp hpre
  obtain ⟨hflat, -⟩ := blocksOf_spec es
  have hkey : t.metaData.minKey = firstKey b := by
    rw [h.minKey, hindex, ← hfirst]
    rfl
  have hnil : ((b :: post).flatten).filter (inRange start stop) = [] :=
    h.filter_drop_nil hbs (by rwa [← hkey])
  rw [← hflat, hbs, hpre', List.nil_append, hnil]

/-- **A scan makes nothing up**: its rows are stored entries in range, in order. -/
theorem OpenedOn.scan_sublist (h : t.OpenedOn es) (start stop : Bytes) :
    ∃ rows, t.scan start stop = .ok rows ∧ rows.Sublist (es.filter (inRange start stop)) := by
  rw [SSTable.scan]
  by_cases hgt : start > stop
  · rw [if_pos hgt]
    exact ⟨[], rfl, List.nil_sublist _⟩
  · rw [if_neg hgt, if_neg (by rw [h.maxKey]; simp)]
    by_cases hbelow : t.metaData.minKey ≠ [] ∧ stop < t.metaData.minKey
    · rw [if_pos hbelow]
      exact ⟨[], rfl, List.nil_sublist _⟩
    · rw [if_neg hbelow]
      by_cases hindex : t.index = []
      · rw [if_pos hindex]
        obtain ⟨rows, hrows, hsub, -⟩ := h.scan_no_index start stop
        exact ⟨rows, hrows, hsub⟩
      · rw [if_neg hindex]
        obtain ⟨rows, hrows, hsub, -⟩ := h.scan_seek hindex start stop
        exact ⟨rows, hrows, hsub⟩

/-- **A scan that no block hides anything from** returns every entry in range. -/
theorem OpenedOn.scan_exact (h : t.OpenedOn es) (hlt : (blocksOf es).length < 2 ^ 32)
    {start stop : Bytes} (hclear : Unhidden es start stop) :
    t.scan start stop = .ok (es.filter (inRange start stop)) := by
  -- an empty range, a range below all keys, no index, or a walk over the index
  rw [SSTable.scan]
  by_cases hgt : start > stop
  · have hnil : es.filter (inRange start stop) = [] := by
      rw [List.filter_eq_nil_iff]
      intro e _ he
      rw [inRange, Bool.and_eq_true, decide_eq_true_eq, decide_eq_true_eq] at he
      exact absurd (he.1.trans he.2) hgt.not_ge
    rw [if_pos hgt, hnil]
  · rw [if_neg hgt, if_neg (by rw [h.maxKey]; simp)]
    by_cases hbelow : t.metaData.minKey ≠ [] ∧ stop < t.metaData.minKey
    · rw [if_pos hbelow, h.filter_below hbelow.1 hbelow.2]
    · rw [if_neg hbelow]
      by_cases hindex : t.index = []
      · obtain ⟨rows, hrows, -, hnil⟩ := h.scan_no_index start stop
        have hes := (h.index_eq_nil_iff hlt).mp hindex
        rw [if_pos hindex, hrows, hnil hes, hes]
        rfl
      · obtain ⟨rows, hrows, -, hexact⟩ := h.scan_seek hindex start stop
        rw [if_neg hindex, hrows, hexact hclear hlt]

/-- **A scan from the empty key** returns every entry up to its bound. -/
theorem OpenedOn.scan_all (h : t.OpenedOn es) (hlt : (blocksOf es).length < 2 ^ 32)
    (stop : Bytes) : t.scan [] stop = .ok (es.filter (inRange [] stop)) :=
  h.scan_exact hlt (unhidden_nil es stop)

/-! ## Scans for a single key -/

/-- The entries with one key are at most the one that a lookup finds. -/
theorem filter_point {es : List Entry} (hsorted : es.Pairwise fun a b => a.1 < b.1) (key : Bytes) :
    es.filter (inRange key key) = ((SortedMap.lookup key es).map (Prod.mk key)).toList := by
  induction es with
  | nil => rfl
  | cons e es ih =>
    obtain ⟨hhead, htail⟩ := List.pairwise_cons.mp hsorted
    -- keys ascend, so no later entry has the key of the first one
    by_cases hkey : key = e.1
    · subst hkey
      have hnil : es.filter (inRange e.1 e.1) = [] := by
        rw [List.filter_eq_nil_iff]
        intro d hd
        simp [inRange, (hhead d hd).not_ge]
      rw [List.filter_cons_of_pos (by simp [inRange]), hnil, SortedMap.lookup, if_pos rfl]
      rfl
    · have hnot : ¬ inRange key key e = true := by
        rw [inRange, Bool.and_eq_true, decide_eq_true_eq, decide_eq_true_eq]
        rintro ⟨hle, hge⟩
        exact hkey (le_antisymm hle hge)
      rw [List.filter_cons_of_neg hnot, ih htail, SortedMap.lookup, if_neg hkey]

/-- In one block, a scan for a key starts where a search for it starts. -/
theorem scanBlock_point {b : List Entry} {closed : Bool} (hb : b ≠ [])
    (hsize : (encodeBlock b closed).length < 2 ^ 32) (hsorted : b.Pairwise fun x y => x.1 < y.1)
    (key : Bytes) :
    ∃ r, findBlock (encodeBlock b closed) (encodeBlock b closed).length key = .ok r ∧
      scanBlockRows (encodeBlock b closed) (encodeBlock b closed).length key key =
        .ok (r.map (Prod.mk key)).toList := by
  obtain ⟨j, hseek, -⟩ := seekRestart_spec hb hsize key
  refine ⟨SortedMap.lookup key (b.drop j), ?_, ?_⟩
  · rw [findBlock, restartArray_eq hsize, Except.ok_bind]
    simp only [hseek, Except.ok_bind, walk_at hsize hsorted]
  · rw [scanBlockRows, restartArray_eq hsize, Except.ok_bind]
    simp only [hseek, Except.ok_bind, scan_at hsize hsorted]
    rw [filter_point (hsorted.sublist (List.drop_sublist j b))]

/-- A block whose first key is not above an entry is the block of the entry, when
the blocks behind it start above the entry as far as the entry's block can lie. -/
theorem ReadBack.position_unique (h : t.ReadBack es) {pre post pre' post' : List (List Entry)}
    {b b' : List Entry} (hbs : blocksOf es = pre ++ b :: post)
    (hbs' : blocksOf es = pre' ++ b' :: post') {e : Entry} (he : e ∈ b')
    (hfront : pre = [] ∨ firstKey b ≤ e.1) {n : Nat}
    (hbehind : ∀ c ∈ post.take n, e.1 < firstKey c) (hn : pre'.length ≤ pre.length + n) :
    pre' = pre := by
  obtain ⟨-, hb, -, hbelow, -⟩ := h.entries hbs
  obtain ⟨-, -, hb'sorted, -, -⟩ := h.entries hbs'
  have hget : (blocksOf es)[pre'.length]? = some b' := by rw [hbs']; simp
  rw [hbs] at hget
  rcases lt_trichotomy pre'.length pre.length with hlt | heq | hgt
  · -- the entry would be in a block in front of `b`
    rw [List.getElem?_append_left hlt] at hget
    rcases hfront with hnil | hle
    · rw [hnil] at hlt
      exact absurd hlt (Nat.not_lt_zero _)
    · obtain ⟨x, hx, hxkey⟩ := firstKey_mem hb
      have hlt' := hbelow e (List.mem_flatten.mpr ⟨b', List.mem_of_getElem? hget, he⟩) x hx
      rw [hxkey] at hlt'
      exact absurd hle hlt'.not_ge
  · exact (List.append_inj (hbs'.symm.trans hbs) heq).1
  · -- the entry would be in a block that starts above it
    rw [List.getElem?_append_right hgt.le,
      show pre'.length - pre.length = (pre'.length - pre.length - 1) + 1 by omega,
      List.getElem?_cons_succ] at hget
    have hmem : b' ∈ post.take n := by
      apply List.mem_of_getElem? (i := pre'.length - pre.length - 1)
      rw [List.getElem?_take_of_lt (by omega), hget]
    exact absurd (firstKey_le hb'sorted he) (hbehind b' hmem).not_ge

/-- **The block a scan for the key of an entry reads.** It is the block that a
lookup searches, and that of the entry whenever this one is in the index. -/
theorem ReadBack.scan_one (h : t.ReadBack es) {e : Entry} (he : e ∈ es) :
    ∃ pre b post block, blocksOf es = pre ++ b :: post ∧
      (pre = [] ∨ pre.length < (blocksOf es).length % 2 ^ 32) ∧
      block = (encodeBlock b (decide (post ≠ []))).take
        ((encodeBlock b (decide (post ≠ []))).length % 2 ^ 32) ∧
      t.scan e.1 e.1 = scanBlockRows block block.length e.1 e.1 ∧
      t.get e.1 = findBlock block block.length e.1 ∧
      ∀ pre' b' post', blocksOf es = pre' ++ b' :: post' → e ∈ b' →
        pre' = [] ∨ pre'.length < (blocksOf es).length % 2 ^ 32 → pre' = pre := by
  have hmay : mayContain t.bloomFilter e.1 = true := by
    rw [h.bloom]
    exact mayContain_buildBloom he
  have hget := get_of_mayContain h.bits_lt hmay
  -- the key is not below the smallest one
  have hbelow : ¬ (t.metaData.minKey ≠ [] ∧ e.1 < t.metaData.minKey) := by
    rintro ⟨hmin, hlt⟩
    have hnil : es.filter (inRange e.1 e.1) = [] := h.filter_below hmin hlt
    rw [List.filter_eq_nil_iff] at hnil
    exact hnil e he (by simp [inRange])
  have hscanAt : t.scan e.1 e.1 = if t.index = [] then t.scanBlock 0 e.1 e.1
      else t.scanIndex e.1 e.1 (seekIndex t.index e.1) := by
    rw [SSTable.scan, if_neg (lt_irrefl e.1), if_neg (by rw [h.maxKey]; simp), if_neg hbelow]
  by_cases hindex : t.index = []
  · -- without an index both read the first block
    obtain ⟨b, post, hbs⟩ := List.exists_cons_of_ne_nil
      (mt blocksOf_eq_nil.mp (List.ne_nil_of_mem he))
    have hcount : (blocksOf es).length % 2 ^ 32 = 0 := by
      have hlen := congrArg List.length h.index
      rw [hindex, List.length_take, List.length_map, dataLayout, length_layoutBlocks,
        List.length_nil] at hlen
      have := Nat.mod_le (blocksOf es).length (2 ^ 32)
      omega
    have hfirst : (dataLayout es).map (·.1) =
        [] ++ ⟨firstKey b, 0⟩ :: ((layoutBlocks (encodeBlock b (decide (post ≠ []))).length
          post).map (·.1)) := by
      rw [dataLayout, hbs, layoutBlocks, List.map_cons, Nat.zero_add]
      rfl
    obtain ⟨pre, b', post', block, hbs', hpre, -, -, hblock, hscan, hfind⟩ := h.block hfirst
    have hpre' : pre = [] := List.length_eq_zero_iff.mp hpre
    rw [if_pos hindex] at hscanAt
    rw [hindex, seekIndex_nil] at hget
    refine ⟨pre, b', post', block, hbs', Or.inl hpre', hblock, hscanAt.trans (hscan e.1 e.1),
      hget.trans (hfind e.1), ?_⟩
    rintro pre'' b'' post'' - - (hnil | hlt)
    · rw [hnil, hpre']
    · omega
  · obtain ⟨ipre, ie, isuf, hsplit, hseek, hbefore, hafter⟩ :=
      seekIndex_spec e.1 h.index_sorted hindex
    have hlen : t.index.length = (blocksOf es).length % 2 ^ 32 := by
      rw [h.index, List.length_take, List.length_map, dataLayout, length_layoutBlocks,
        min_eq_left (Nat.mod_le _ _)]
    rw [hsplit, List.length_append, List.length_cons] at hlen
    have hall := h.index_split
    rw [hsplit, List.append_assoc, List.cons_append] at hall
    obtain ⟨pre, b, post, block, hbs, hpre, hpost, hmin, hblock, hscan, hfind⟩ := h.block hall
    obtain ⟨hes, hb, hbsorted, hbefore', habove⟩ := h.entries hbs
    have hle : ¬ ie.minKey > e.1 := by
      rcases hbefore with hnil | hle
      · -- the scan starts in the first block, whose first key is the smallest
        rw [hnil, List.length_nil] at hpre
        rw [List.length_eq_zero_iff.mp hpre, List.flatten_nil, List.nil_append] at hes
        rw [hmin, not_lt]
        rw [hes, List.mem_append] at he
        rcases he with he | he
        · exact firstKey_le hbsorted he
        · obtain ⟨x, hx, hxkey⟩ := firstKey_mem hb
          rw [← hxkey]
          exact (habove x hx e he).le
      · exact not_lt.mpr hle
    -- index entries behind start above the key, so their blocks are not read
    have hrest : t.scanIndex e.1 e.1 isuf = .ok [] := by
      cases isuf with
      | nil => rfl
      | cons x isuf => rw [scanIndex, if_pos (hafter x (List.mem_cons_self ..))]
    rw [if_neg hindex, hseek, scanIndex, if_neg hle, hscan, hrest] at hscanAt
    rw [hseek] at hget
    refine ⟨pre, b, post, block, hbs, Or.inr (by omega), hblock, ?_, hget.trans (hfind e.1), ?_⟩
    · rw [hscanAt]
      cases scanBlockRows block block.length e.1 e.1 with
      | error f => rfl
      | ok rows => exact congrArg Except.ok (List.append_nil rows)
    -- blocks behind the one that is read start above the entry
    · intro pre' b' post' hbs' he' hpos
      have hlt : pre'.length < (blocksOf es).length % 2 ^ 32 := by
        rcases hpos with hnil | hlt
        · rw [hnil, List.length_nil]
          omega
        · exact hlt
      refine h.position_unique hbs hbs' he' ?_ (n := isuf.length) ?_ (by omega)
      · refine hbefore.imp ?_ ?_
        · intro hnil
          rw [hnil, List.length_nil] at hpre
          exact List.length_eq_zero_iff.mp hpre
        · rw [hmin]
          exact id
      · intro c hc
        have hck : firstKey c ∈ (isuf.map (·.minKey)) := by
          have htake := congrArg (List.take isuf.length) hpost
          rw [List.map_append, List.take_left' (List.length_map ..), ← List.map_take] at htake
          rw [htake]
          exact List.mem_map_of_mem hc
        obtain ⟨x, hx, hxkey⟩ := List.mem_map.mp hck
        rw [← hxkey]
        exact hafter x hx

/-- **A scan for the key of an entry** returns what a lookup of it returns. -/
theorem OpenedOn.scan_point (h : t.OpenedOn es) {e : Entry} (he : e ∈ es) :
    ∃ r, t.get e.1 = .ok r ∧ t.scan e.1 e.1 = .ok (r.map (Prod.mk e.1)).toList := by
  obtain ⟨pre, b, post, block, hbs, -, hblock, hscan, hget, -⟩ := h.scan_one he
  obtain ⟨-, hb, hbsorted, -, -⟩ := h.entries hbs
  have hsize := h.length_lt hbs
  rw [Nat.mod_eq_of_lt hsize, List.take_length] at hblock
  subst hblock
  obtain ⟨r, hr, hrows⟩ := scanBlock_point hb hsize hbsorted e.1
  exact ⟨r, hget.trans hr, hscan.trans hrows⟩

/-! ## Blocks that are too long -/

/-- The lengths of an entry that is read fit their fields, and the entry the block. -/
theorem readEntry_size {block key val : Bytes} {ptr next : Nat}
    (h : readEntry block ptr = .ok (key, val, next)) :
    key.length < 2 ^ 32 ∧ val.length < 2 ^ 32 ∧ 8 + key.length + val.length ≤ block.length := by
  simp only [readEntry, Except.bind_eq_ok_iff] at h
  obtain ⟨klen, hklen, k, hk, vlen, hvlen, v, hv, hr⟩ := h
  obtain ⟨rfl, hrest⟩ := Prod.mk.inj (Except.ok.inj hr)
  obtain ⟨rfl, -⟩ := Prod.mk.inj hrest
  have hklt := readLE_lt hklen
  have hvlt := readLE_lt hvlen
  have hbound := (slice_ok hv).1
  rw [slice_ok_length hk, slice_ok_length hv]
  omega

/-- A row that a block gives out has short lengths, lies inside the block and is in
range. -/
theorem scanFrom_rows {block start stop : Bytes} {limit ptr : Nat} {rows : List Entry}
    (h : scanFrom block limit start stop ptr = .ok rows) :
    ∀ r ∈ rows, (r.1.length < 2 ^ 32 ∧ r.2.length < 2 ^ 32 ∧
      8 + r.1.length + r.2.length ≤ block.length) ∧ inRange start stop r = true := by
  induction hn : limit - ptr using Nat.strong_induction_on generalizing ptr rows with
  | _ n ih =>
  -- by induction on what is left up to the limit
  rcases Nat.lt_or_ge ptr limit with hlt | hge
  · rw [scanFrom_eq hlt] at h
    obtain ⟨head, hhead, h⟩ := Except.bind_eq_ok_iff.mp h
    have hnext := lt_of_readHead hhead
    split at h
    · obtain rfl := Except.ok.inj h
      exact fun r hr => absurd hr List.not_mem_nil
    · next hstop =>
      split at h
      · next hstart =>
        -- a row of the range, whose value was copied
        obtain ⟨v, hv, h⟩ := Except.bind_eq_ok_iff.mp h
        obtain ⟨-, -, h⟩ := Except.bind_eq_ok_iff.mp h
        obtain ⟨out, hout, h⟩ := Except.bind_eq_ok_iff.mp h
        obtain rfl := Except.ok.inj h
        have hsize := readEntry_size (readEntry_ok_iff.mpr ⟨head, hhead, rfl, hv, rfl⟩)
        refine List.forall_mem_cons.mpr
          ⟨⟨hsize, ?_⟩, ih (limit - head.next) (by omega) hout rfl⟩
        rw [inRange, Bool.and_eq_true, decide_eq_true_eq, decide_eq_true_eq]
        exact ⟨hstart, not_lt.mp hstop⟩
      · exact ih (limit - head.next) (by omega) h rfl
  · rw [scanFrom, if_neg hge.not_gt] at h
    obtain rfl := Except.ok.inj h
    exact fun r hr => absurd hr List.not_mem_nil

/-- So do those of the rows of a scan. -/
theorem scanBlockRows_size {block start stop : Bytes} {n : Nat} {rows : List Entry}
    (h : scanBlockRows block n start stop = .ok rows) :
    ∀ r ∈ rows, r.1.length < 2 ^ 32 ∧ r.2.length < 2 ^ 32 ∧
      8 + r.1.length + r.2.length ≤ block.length := by
  obtain ⟨⟨restartsPtr, numRestarts⟩, -, h⟩ := Except.bind_eq_ok_iff.mp h
  obtain ⟨ptr, -, h⟩ := Except.bind_eq_ok_iff.mp h
  exact fun r hr => (scanFrom_rows h r hr).1

/-- Whatever a table contains, the rows of a scan are rows of block walks. -/
theorem forall_mem_scan {t : SSTable} {start stop : Bytes} {P : Entry → Prop}
    (hwalk : ∀ block limit ptr rows, scanFrom block limit start stop ptr = .ok rows →
      ∀ r ∈ rows, P r)
    {rows : List Entry} (h : t.scan start stop = .ok rows) : ∀ r ∈ rows, P r := by
  have hnil : ∀ r ∈ ([] : List Entry), P r := fun r hr => absurd hr List.not_mem_nil
  -- one block
  have hblock : ∀ offset rows, t.scanBlock offset start stop = .ok rows → ∀ r ∈ rows, P r := by
    intro offset rows h
    have h := (wrapping_ok_iff.mp h).2
    split at h
    · exact Except.ok.inj h ▸ hnil
    · obtain ⟨header, -, h⟩ := Except.bind_eq_ok_iff.mp h
      obtain ⟨size, -, h⟩ := Except.bind_eq_ok_iff.mp h
      obtain ⟨blockData, -, h⟩ := Except.bind_eq_ok_iff.mp h
      obtain ⟨⟨restartsPtr, numRestarts⟩, -, h⟩ := Except.bind_eq_ok_iff.mp h
      obtain ⟨ptr, -, h⟩ := Except.bind_eq_ok_iff.mp h
      exact hwalk _ _ _ rows h
  -- the blocks of the index, by induction on it
  have hindex : ∀ index rows, t.scanIndex start stop index = .ok rows → ∀ r ∈ rows, P r := by
    intro index
    induction index with
    | nil =>
      intro rows h
      exact Except.ok.inj h ▸ hnil
    | cons ie index ih =>
      intro rows h
      rw [scanIndex] at h
      split at h
      · exact Except.ok.inj h ▸ hnil
      · obtain ⟨first, hfirst, h⟩ := Except.bind_eq_ok_iff.mp h
        obtain ⟨more, hmore, h⟩ := Except.bind_eq_ok_iff.mp h
        obtain rfl := Except.ok.inj h
        exact List.forall_mem_append.mpr ⟨hblock _ _ hfirst, ih more hmore⟩
  rw [SSTable.scan] at h
  split at h
  · exact Except.ok.inj h ▸ hnil
  · split at h
    · exact Except.ok.inj h ▸ hnil
    · split at h
      · exact Except.ok.inj h ▸ hnil
      · split at h
        · exact hblock 0 rows h
        · exact hindex _ rows h

/-- No scan gives out a row whose lengths do not fit 32 bits. -/
theorem small_of_scan {t : SSTable} {start stop : Bytes} {rows : List Entry}
    (h : t.scan start stop = .ok rows) : Small rows := by
  refine forall_mem_scan (P := fun r => r.1.length < 2 ^ 32 ∧ r.2.length < 2 ^ 32) ?_ h
  intro block limit ptr out hwalk r hr
  obtain ⟨⟨hk, hv, -⟩, -⟩ := scanFrom_rows hwalk r hr
  exact ⟨hk, hv⟩

/-- No scan gives out a row outside its range. -/
theorem inRange_of_scan {t : SSTable} {start stop : Bytes} {rows : List Entry}
    (h : t.scan start stop = .ok rows) : ∀ r ∈ rows, inRange start stop r = true :=
  forall_mem_scan (fun _ _ _ _ hwalk r hr => (scanFrom_rows hwalk r hr).2) h

/-- A block with a size that does not fit 32 bits holds one entry, which no read of
the block gives out. -/
theorem not_mem_of_long {b : List Entry} {closed : Bool} (hb : b ≠ [])
    (hsize : b.length ≤ 1 ∨ 8 + (b.flatMap encodeEntry).length ≤ blockTargetBytes)
    (hlong : 2 ^ 32 ≤ (encodeBlock b closed).length) :
    ∃ e ∈ b, ∀ block start stop rows,
      block = (encodeBlock b closed).take ((encodeBlock b closed).length % 2 ^ 32) →
      scanBlockRows block block.length start stop = .ok rows → e ∉ rows := by
  have hcount := (length_blockRestarts_le b closed).resolve_right hb
  have hentries := length_le_flatMap_encodeEntry b
  have hlen := length_encodeBlock b closed
  -- only an entry alone in its block can be so long
  have hone : b.length ≤ 1 := by
    refine hsize.resolve_right fun hle => ?_
    unfold blockTargetBytes at hle
    omega
  obtain ⟨e, rest, rfl⟩ := List.exists_cons_of_ne_nil hb
  have hrest : rest = [] := by
    rw [List.length_cons] at hone
    exact List.length_eq_zero_iff.mp (by omega)
  subst hrest
  refine ⟨e, List.mem_singleton_self e, fun block start stop rows hblock hrows he => ?_⟩
  obtain ⟨-, -, hinside⟩ := scanBlockRows_size hrows e he
  have hshort : block.length ≤ (encodeBlock [e] closed).length % 2 ^ 32 := by
    rw [hblock, List.length_take]
    exact min_le_left _ _
  have hentry := length_encodeEntry e
  rw [List.flatMap_cons, List.flatMap_nil, List.append_nil] at hlen
  rw [List.length_singleton] at hcount
  -- what is left of the size in 32 bits is smaller than the entry
  omega

/-- When every entry is found by the scan for its key, all blocks fit. -/
theorem ReadBack.blocksFit (h : t.ReadBack es) (hsmall : Small es)
    (hexact : ∀ e ∈ es, t.scan e.1 e.1 = .ok [e]) : BlocksFit es := by
  obtain ⟨hflat, hne⟩ := blocksOf_spec es
  have hmemOf : ∀ {pre b post}, blocksOf es = pre ++ b :: post → ∀ e ∈ b, e ∈ es := by
    intro pre b post hbs e he
    rw [← hflat, hbs]
    simp [he]
  -- a block that the index has and that does not fit would hide one of its entries
  have hindexed : ∀ pre b post, blocksOf es = pre ++ b :: post →
      pre = [] ∨ pre.length < (blocksOf es).length % 2 ^ 32 →
      (encodeBlock b (decide (post ≠ []))).length < 2 ^ 32 := by
    intro pre b post hbs hpos
    have hb : b ∈ blocksOf es := by rw [hbs]; simp
    by_contra hlong
    obtain ⟨e, he, hmissed⟩ :=
      not_mem_of_long (hne b hb) (blocksOf_size hsmall b hb) (not_lt.mp hlong)
    obtain ⟨pre', b', post', block, hbs', -, hblock, hscan, -, hown⟩ := h.scan_one (hmemOf hbs e he)
    obtain rfl := hown pre b post hbs he hpos
    obtain ⟨rfl, rfl⟩ := List.cons.inj (List.append_cancel_left (hbs'.symm.trans hbs))
    rw [hexact e (hmemOf hbs e he)] at hscan
    exact hmissed block _ _ _ hblock hscan.symm (List.mem_singleton_self e)
  have hcount : (blocksOf es).length < 2 ^ 32 := by
    by_contra hge
    have hblocks : blocksOf es ≠ [] := by
      intro hnil
      rw [hnil] at hge
      exact hge (by norm_num)
    -- the last block is not in the index, so its entries are looked for elsewhere
    have hbs : blocksOf es = (blocksOf es).dropLast ++ (blocksOf es).getLast hblocks :: [] :=
      (List.dropLast_append_getLast hblocks).symm
    obtain ⟨-, hb, -, -, -⟩ := h.entries hbs
    obtain ⟨e, he⟩ := List.exists_mem_of_ne_nil _ hb
    obtain ⟨pre', b', post', block, hbs', hpos', hblock, hscan, -, -⟩ :=
      h.scan_one (hmemOf hbs e he)
    obtain ⟨-, hb', hb'sorted, -, -⟩ := h.entries hbs'
    have hsize := hindexed pre' b' post' hbs' hpos'
    rw [Nat.mod_eq_of_lt hsize, List.take_length] at hblock
    subst hblock
    obtain ⟨rows, hrows, hor⟩ := scanBlock_spec hb' hsize hb'sorted e.1 e.1
    rw [hexact e (hmemOf hbs e he), hrows] at hscan
    obtain rfl := Except.ok.inj hscan
    -- the scan found the entry in the block that it read, so that is the last block
    have hmem : e ∈ b' := by
      rcases hor with hfilter | ⟨hnil, -⟩
      · have hin : e ∈ b'.filter (inRange e.1 e.1) := by
          rw [← hfilter]
          exact List.mem_singleton_self e
        exact (List.mem_filter.mp hin).1
      · exact absurd hnil (List.cons_ne_nil e [])
    obtain ⟨hpre, -, -⟩ := h.block_unique hbs hbs' he hmem rfl
    have hlen := (blocksOf es).length_dropLast
    have hmod := Nat.mod_lt (blocksOf es).length (show 0 < 2 ^ 32 by norm_num)
    rw [← hpre] at hpos'
    rcases hpos' with hnil | hlt
    · rw [hnil, List.length_nil] at hlen
      omega
    · omega
  intro p hp
  rw [buildBlocks_eq] at hp
  obtain ⟨pre, b, post, hbs, hdata⟩ := mem_layoutBlocks hp
  rw [hdata]
  refine hindexed pre b post hbs (Or.inr ?_)
  rw [Nat.mod_eq_of_lt hcount, hbs]
  simp

/-! ## When scans are exact -/

/-- In a searchable table a dangling restart is at or above the last key of its
block. -/
theorem OpenedOn.unhidden (h : t.OpenedOn es) (hs : Searchable es) (start stop : Bytes) :
    Unhidden es start stop := by
  intro pre b post hbs hdang hlt
  obtain ⟨-, hb, hbsorted, -, -⟩ := h.entries hbs
  rw [dangling, Bool.and_eq_true, decide_eq_true_eq, beq_iff_eq] at hdang
  have hlast := hs.2 b (mem_dropLast_iff.mpr ⟨pre, post, hbs, hdang.1⟩) hdang.2 (b.getLast hb)
    (List.getLast?_eq_some_getLast hb)
  rw [List.filter_eq_nil_iff]
  intro e he hin
  rw [inRange, Bool.and_eq_true, decide_eq_true_eq, decide_eq_true_eq] at hin
  exact hlast (hlt.trans_le (hin.1.trans (le_getLast hbsorted he hb)))

/-- **When scans are exact.** After ascending entries (`hsorted`) are written (`hcreate`)
and the file is reopened, every scan returns the entries in its range, in order, if and only
if all blocks fit their size fields and the table is searchable. Sizes are part of the
condition here and no hypothesis: a file with a block that is too long does not open, or
some scan of it is wrong. -/
theorem scans_exact_iff {es : List Entry} {file : Bytes}
    (hsorted : es.Pairwise fun a b => a.1 < b.1) (hcreate : create es = .ok file) :
    (∃ t, openFile file = .ok t ∧ ∀ start stop,
      t.scan start stop = .ok (es.filter fun e => decide (start ≤ e.1) && decide (e.1 ≤ stop))) ↔
      BlocksFit es ∧ Searchable es := by
  constructor
  · rintro ⟨t, hopen, hexact⟩
    -- whatever the file looks like, an entry that does not fit is never read
    have hsmall : Small es := by
      intro e he
      have hmem : e ∈ es.filter fun d => decide (e.1 ≤ d.1) && decide (d.1 ≤ e.1) :=
        List.mem_filter.mpr ⟨he, by simp⟩
      exact small_of_scan (hexact e.1 e.1) e hmem
    obtain ⟨t', hopen', ht⟩ := openFile_readBack hcreate hsorted fun e he => (hsmall e he).1
    obtain rfl : t' = t := Except.ok.inj (hopen'.symm.trans hopen)
    have hone : ∀ e ∈ es, t'.scan e.1 e.1 = .ok [e] := by
      intro e he
      rw [hexact]
      have hfilter := filter_point hsorted e.1
      rw [(SortedMap.lookup_eq_some_of_sorted hsorted).mpr he] at hfilter
      exact congrArg Except.ok hfilter
    have h : t'.OpenedOn es := ⟨ht, ht.blocksFit hsmall hone⟩
    refine ⟨h.fit, ?_⟩
    by_contra hs
    -- a key that no lookup finds is in no scan either
    obtain ⟨e, he, hmissed⟩ := h.exists_missed hs
    obtain ⟨r, hget, hscan⟩ := h.scan_point he
    rw [hmissed] at hget
    obtain rfl := Except.ok.inj hget
    rw [hone e he] at hscan
    exact absurd (Except.ok.inj hscan) (List.cons_ne_nil e [])
  -- the other direction: no block hides anything
  · rintro ⟨hfit, hs⟩
    obtain ⟨t, hopen, h⟩ := openFile_create hcreate hsorted hfit
    exact ⟨t, hopen, fun start stop => h.scan_exact hs.1 (h.unhidden hs start stop)⟩

/-- Every scan of a table with a block that is closed at a restart boundary. -/
theorem scans_exact_iff_boundary : ∃ file t, create boundarySample = .ok file ∧
    openFile file = .ok t ∧ ∀ start stop, t.scan start stop = .ok (boundarySample.filter
      fun e => decide (start ≤ e.1) && decide (e.1 ≤ stop)) := by
  obtain ⟨file, hcreate⟩ := Except.exists_eq_ok (x := create boundarySample) (by decide +kernel)
  have hsorted : boundarySample.Pairwise fun a b => a.1 < b.1 := by decide +kernel
  obtain ⟨t, hopen, hscan⟩ := (scans_exact_iff hsorted hcreate).mpr
    ⟨by decide +kernel, boundarySample_blocks.2⟩
  exact ⟨file, t, hcreate, hopen, hscan⟩

/-- Sixteen small entries and a large one: a scan that starts at the last key of
the first block ends at the dangling restart and drops that key. -/
theorem scan_misses_stored_key :
    let es : List Entry := ((List.range 16).map fun i => ([UInt8.ofNat (200 + i)], [1])) ++
      [([216], List.replicate 4096 0)]
    (es.Pairwise fun a b => a.1 < b.1) ∧ BlocksFit es ∧ ([215], [1]) ∈ es ∧
      (create es >>= openFile >>= fun t => t.scan [215] [215]) = .ok [] := by
  decide +kernel

end SSTable

end Zenith
