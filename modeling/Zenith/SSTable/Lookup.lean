import Zenith.SSTable.Table

/-!
# Zenith — point lookups in a sorted table

What `get` answers on a table opened from a file that `create` wrote.

A lookup asks the filter, searches the index for the last block that does not start above
the key, reads that block and searches it. The filter has no false negatives, and the index
leads to the only block that can hold the key. Two defects of the format can make the search
miss a key that is there, and none can make it return a wrong value:

* a block closed by the size rule after a multiple of sixteen entries ends with a dangling
  restart, which a search for a key above `danglingKey` may end at;
* the number of blocks is truncated to 32 bits, so beyond that blocks are left out of the
  index.

`Searchable` is the condition that neither defect bites. It is computed from the entries, by
cutting them into blocks as `create` does, and does not mention a search. That it is exact
has two directions: in a searchable table each search finds its key, and in one that is not
some stored key is missed. For the second the key is the last one of a block with a bad
restart, or any key of a block that the index does not have.

`OpenedOn` and `ReadBack` are what is known of an open table: the file it reads, the index
it loaded, and the entries they were made from. The second leaves out that blocks fit their
size fields.

Main results:

* `OpenedOn.get_sound` — what is returned was stored;
* `lookups_exact_iff` — every lookup is right if and only if the table is `Searchable`, that
  is, neither defect bites.
-/

namespace Zenith

open Bytes

namespace SSTable

/-! ## The index search -/

/-- An empty index leads nowhere. -/
theorem seekIndex_nil (key : Bytes) : seekIndex [] key = [] := List.drop_nil

/-- Where the index search lands: the entries after it are above the key, and
the entry itself is not, unless it is the first. -/
theorem seekIndex_spec {index : List IndexEntry} (key : Bytes)
    (hsorted : (index.map (·.minKey)).Pairwise (· < ·)) (hne : index ≠ []) :
    ∃ ipre ie isuf, index = ipre ++ ie :: isuf ∧ seekIndex index key = ie :: isuf ∧
      (ipre = [] ∨ ie.minKey ≤ key) ∧ ∀ x ∈ isuf, key < x.minKey := by
  have hpos := List.length_pos_iff.mpr hne
  obtain ⟨-, hle, hbelow, hat⟩ := BinarySearch.search_spec (q := notAbove index key)
    (Nat.zero_le index.length)
  rw [← upperBound] at hle hbelow hat
  generalize hbound : upperBound index key = bound at *
  have hlt : bound - 1 < index.length := by omega
  refine ⟨index.take (bound - 1), index[bound - 1], index.drop (bound - 1 + 1), ?_, ?_, ?_, ?_⟩
  · rw [← List.drop_eq_getElem_cons hlt, List.take_append_drop]
  · rw [seekIndex, hbound, List.drop_eq_getElem_cons hlt]
  · rcases Nat.eq_zero_or_pos bound with rfl | hbound0
    · exact .inl rfl
    · right
      have hnot := hbelow hbound0
      rw [notAbove, List.getElem?_eq_getElem hlt] at hnot
      simpa using hnot
  -- entries behind the one that the search landed on
  · intro x hx
    obtain ⟨i, hi, rfl⟩ := List.mem_iff_getElem.mp hx
    rw [List.length_drop] at hi
    rw [List.getElem_drop]
    -- the entry at the upper bound is above the key, and the order takes it from there
    have hb : bound < index.length := by omega
    have habove : key < index[bound].minKey := by
      have hnot := hat hb
      rw [notAbove, List.getElem?_eq_getElem hb] at hnot
      simpa using hnot
    rcases Nat.lt_or_ge bound (bound - 1 + 1 + i) with hgt | hge
    · rw [List.pairwise_map, List.pairwise_iff_getElem] at hsorted
      exact habove.trans (hsorted bound _ hb (by omega) hgt)
    · simp only [show bound - 1 + 1 + i = bound by omega]
      exact habove

/-- A lookup that passes the filter goes to the block the index leads to. -/
theorem get_of_mayContain {t : SSTable} {key : Bytes} (hbits : t.bloomFilter.length * 8 < 2 ^ 64)
    (hmay : mayContain t.bloomFilter key = true) :
    t.get key = match seekIndex t.index key with
      | [] => t.findInBlock 0 key
      | ie :: _ => t.findInBlock ie.offset key := by
  have hnot : ¬ mayContain t.bloomFilter key = false := by
    rw [hmay]
    simp
  rw [SSTable.get, if_neg hbits.not_ge]
  exact if_neg hnot

/-- A lookup that does not pass it ends there. -/
theorem get_of_not_mayContain {t : SSTable} {key : Bytes}
    (hbits : t.bloomFilter.length * 8 < 2 ^ 64) (hmay : mayContain t.bloomFilter key = false) :
    t.get key = .ok none := by
  rw [SSTable.get, if_neg hbits.not_ge, if_pos hmay]

/-! ## Blocks of an open table -/

section Opened

variable {t : SSTable} {es : List Entry}

/-- The bytes of the file at an index entry are those of its block. -/
theorem ReadBack.block_at (h : t.ReadBack es) {ipre isuf : List IndexEntry} {ie : IndexEntry}
    (hsplit : (dataLayout es).map (·.1) = ipre ++ ie :: isuf) :
    ∃ pre b post, blocksOf es = pre ++ b :: post ∧ pre.length = ipre.length ∧
      isuf.map (·.minKey) = post.map firstKey ∧ ie.minKey = firstKey b ∧
      ie.offset + (encodeBlock b (decide (post ≠ []))).length ≤ t.dataEnd ∧
      ∀ n ≤ (encodeBlock b (decide (post ≠ []))).length,
        readBytes t.file ie.offset n = (encodeBlock b (decide (post ≠ []))).take n := by
  obtain ⟨pre, b, post, a, z, hbs, hpre, hpost, hmin, hoff, hdata⟩ := layoutBlocks_split hsplit
  obtain ⟨z', hfile⟩ := h.file
  have hend := h.dataEnd
  rw [dataLayout, hdata] at hfile hend
  rw [List.append_assoc, List.append_assoc] at hfile
  rw [List.length_append, List.length_append] at hend
  refine ⟨pre, b, post, hbs, hpre, hpost, hmin, by omega, fun n hn => ?_⟩
  rw [readBytes, hfile, hoff, Nat.zero_add, List.drop_left, List.take_append_of_le_length hn]

/-- The header of a block: the number of entries and the size, in 32 bits. -/
theorem encodeBlock_header (b : List Entry) (closed : Bool) :
    (encodeBlock b closed).take 8 =
      leBytes 4 b.length ++ (leBytes 4 (encodeBlock b closed).length ++ []) := by
  have hcut : encodeBlock b closed = (leBytes 4 b.length ++
      (leBytes 4 (encodeBlock b closed).length ++ [])) ++ (encodeBlock b closed).drop 8 := by
    conv_lhs => rw [encodeBlock]
    rw [length_encodeBlock, encodeBlock]
    simp only [List.append_nil, List.append_assoc]
    rw [← List.append_assoc (leBytes 4 b.length), ← List.append_assoc (leBytes 4 b.length),
      List.drop_left' (by simp)]
  conv_lhs => rw [hcut]
  exact List.take_left' (by simp)

/-- What the readers take from the header. -/
theorem read_header (b : List Entry) (closed : Bool) :
    readLE 4 ((encodeBlock b closed).take 8) 0 = .ok (b.length % 2 ^ 32) ∧
      readLE 4 ((encodeBlock b closed).take 8) 4 = .ok ((encodeBlock b closed).length % 2 ^ 32) := by
  rw [encodeBlock_header, ← leBytes_mod 4 b.length, ← leBytes_mod 4 (encodeBlock b closed).length]
  exact ⟨readLE_eq (a := []) (List.nil_append _).symm rfl (Nat.mod_lt _ (by norm_num)),
    readLE_eq rfl (length_leBytes 4 _).symm (Nat.mod_lt _ (by norm_num))⟩

/-- Reads at an index entry read its block, as far as the size field of the block
tells. -/
theorem ReadBack.block (h : t.ReadBack es) {ipre isuf : List IndexEntry} {ie : IndexEntry}
    (hsplit : (dataLayout es).map (·.1) = ipre ++ ie :: isuf) :
    ∃ pre b post block, blocksOf es = pre ++ b :: post ∧ pre.length = ipre.length ∧
      isuf.map (·.minKey) = post.map firstKey ∧ ie.minKey = firstKey b ∧
      block = (encodeBlock b (decide (post ≠ []))).take
        ((encodeBlock b (decide (post ≠ []))).length % 2 ^ 32) ∧
      (∀ start stop, t.scanBlock ie.offset start stop =
        scanBlockRows block block.length start stop) ∧
      ∀ key, t.findInBlock ie.offset key = findBlock block block.length key := by
  obtain ⟨pre, b, post, hbs, hpre, hpost, hmin, hend, hread⟩ := h.block_at hsplit
  have hend' := h.dataEnd_lt
  have hlen := length_encodeBlock b (decide (post ≠ []))
  obtain ⟨hnum, hsizeField⟩ := read_header b (decide (post ≠ []))
  refine ⟨pre, b, post, _, hbs, hpre, hpost, hmin, rfl, ?_⟩
  generalize encodeBlock b (decide (post ≠ [])) = block at *
  have hmod := Nat.mod_le block.length (2 ^ 32)
  have hheader := hread 8 (by omega)
  have hblock := hread _ hmod
  have htake : (block.take (block.length % 2 ^ 32)).length = block.length % 2 ^ 32 := by
    rw [List.length_take, min_eq_left hmod]
  -- offsets inside the data do not wrap
  have haddSize : addU64 ie.offset (block.length % 2 ^ 32) =
      .ok (ie.offset + block.length % 2 ^ 32) := if_pos (by omega)
  rw [htake]
  constructor
  · intro start stop
    rw [scanBlock, wrapping_eq (by omega), if_neg (by omega)]
    simp only [Machine.read_ample, hheader, hsizeField, Except.ok_bind, hblock]
  -- `find_in_block` reads the same header and the same bytes
  · intro key
    rw [findInBlock, wrapping_eq (by omega), if_neg (by omega)]
    simp only [Machine.read_ample, hheader, hnum, hsizeField, haddSize, Except.ok_bind, hblock]
    rw [if_neg (by omega)]

/-- The size field gives the length of a block. -/
theorem OpenedOn.length_lt (h : t.OpenedOn es) {pre post : List (List Entry)} {b : List Entry}
    (hbs : blocksOf es = pre ++ b :: post) : (encodeBlock b (decide (post ≠ []))).length < 2 ^ 32 := by
  obtain ⟨p, hp, hdata⟩ := exists_mem_layoutBlocks 0 pre b post
  rw [← hbs, ← dataLayout] at hp
  exact hdata ▸ h.fit.length_lt hp

/-- Reads at an index entry read its block. -/
theorem OpenedOn.block (h : t.OpenedOn es) {ipre isuf : List IndexEntry} {ie : IndexEntry}
    (hsplit : (dataLayout es).map (·.1) = ipre ++ ie :: isuf) :
    ∃ pre b post, blocksOf es = pre ++ b :: post ∧ pre.length = ipre.length ∧
      isuf.map (·.minKey) = post.map firstKey ∧ ie.minKey = firstKey b ∧
      (encodeBlock b (decide (post ≠ []))).length < 2 ^ 32 ∧
      (∀ key, t.findInBlock ie.offset key = findBlock (encodeBlock b (decide (post ≠ [])))
        (encodeBlock b (decide (post ≠ []))).length key) ∧
      ∀ start stop, t.scanBlock ie.offset start stop =
        scanBlockRows (encodeBlock b (decide (post ≠ [])))
          (encodeBlock b (decide (post ≠ []))).length start stop := by
  obtain ⟨pre, b, post, block, hbs, hpre, hpost, hmin, hblock, hscan, hfind⟩ := h.toReadBack.block hsplit
  have hsize := h.length_lt hbs
  rw [Nat.mod_eq_of_lt hsize, List.take_length] at hblock
  subst hblock
  exact ⟨pre, b, post, hbs, hpre, hpost, hmin, hsize, hfind, hscan⟩

/-! ## Lookups -/

/-- A key that no entry has. -/
theorem lookup_eq_none {key : Bytes} {es : List Entry} (h : ∀ e ∈ es, e.1 ≠ key) :
    SortedMap.lookup key es = none := by
  induction es with
  | nil => rfl
  | cons e es ih =>
    rw [SortedMap.lookup, if_neg (Ne.symm (h e (List.mem_cons_self ..)))]
    exact ih fun d hd => h d (List.mem_cons_of_mem _ hd)

/-- The first key of a block is that of an entry. -/
theorem firstKey_mem {b : List Entry} (hb : b ≠ []) : ∃ e ∈ b, e.1 = firstKey b := by
  cases b with
  | nil => exact absurd rfl hb
  | cons e b => exact ⟨e, List.mem_cons_self .., rfl⟩

/-- The first key of a block is its smallest. -/
theorem firstKey_le {b : List Entry} (hsorted : b.Pairwise fun x y => x.1 < y.1) {e : Entry}
    (he : e ∈ b) : firstKey b ≤ e.1 := by
  cases b with
  | nil => exact absurd he List.not_mem_nil
  | cons d b =>
    rcases List.mem_cons.mp he with rfl | he
    · exact le_rfl
    · exact ((List.pairwise_cons.mp hsorted).1 e he).le

/-- The last key of a block is its largest. -/
theorem le_getLast {b : List Entry} (hsorted : b.Pairwise fun x y => x.1 < y.1) {e : Entry}
    (he : e ∈ b) (hb : b ≠ []) : e.1 ≤ (b.getLast hb).1 := by
  obtain ⟨init, hinit⟩ : ∃ init, b = init ++ [b.getLast hb] :=
    ⟨_, (List.dropLast_append_getLast hb).symm⟩
  rw [hinit, List.pairwise_append] at hsorted
  rw [hinit] at he
  rcases List.mem_append.mp he with he | he
  · exact (hsorted.2.2 e he _ (List.mem_singleton_self _)).le
  · rw [List.mem_singleton.mp he]

/-- The entries around a block. -/
theorem ReadBack.entries (h : t.ReadBack es) {pre post : List (List Entry)} {b : List Entry}
    (hbs : blocksOf es = pre ++ b :: post) :
    es = pre.flatten ++ (b ++ post.flatten) ∧ b ≠ [] ∧ b.Pairwise (fun x y => x.1 < y.1) ∧
      (∀ x ∈ pre.flatten, ∀ y ∈ b, x.1 < y.1) ∧ ∀ x ∈ b, ∀ y ∈ post.flatten, x.1 < y.1 := by
  obtain ⟨hflat, hne⟩ := blocksOf_spec es
  have hes : es = pre.flatten ++ (b ++ post.flatten) := by
    rw [← hflat, hbs, List.flatten_append, List.flatten_cons]
  have hsorted := h.sorted
  rw [hes, List.pairwise_append, List.pairwise_append] at hsorted
  obtain ⟨-, ⟨hb, -, hpost⟩, hpre⟩ := hsorted
  refine ⟨hes, hne b (by rw [hbs]; simp), hb, ?_, hpost⟩
  intro x hx y hy
  exact hpre x hx y (List.mem_append_left _ hy)

/-- The keys of the index ascend, because blocks are cut from ascending entries. -/
theorem ReadBack.index_sorted (h : t.ReadBack es) :
    (t.index.map (·.minKey)).Pairwise (· < ·) := by
  -- entries of an earlier block are below those of a later one, first keys among them
  have hall : ((blocksOf es).map firstKey).Pairwise (· < ·) := by
    rw [List.pairwise_iff_getElem]
    intro i j hi hj hij
    rw [List.length_map] at hi hj
    rw [List.getElem_map, List.getElem_map]
    have hbs : blocksOf es = (blocksOf es).take j ++ (blocksOf es)[j] :: (blocksOf es).drop (j + 1) := by
      rw [← List.drop_eq_getElem_cons hj, List.take_append_drop]
    obtain ⟨-, hne, -, hpre, -⟩ := h.entries hbs
    obtain ⟨x, hx, hxkey⟩ := firstKey_mem ((blocksOf_spec es).2 _ (List.getElem_mem hi))
    obtain ⟨y, hy, hykey⟩ := firstKey_mem hne
    rw [← hxkey, ← hykey]
    apply hpre x _ y hy
    rw [List.mem_flatten]
    refine ⟨(blocksOf es)[i], ?_, hx⟩
    exact List.mem_take_iff_getElem.mpr ⟨i, by omega, rfl⟩
  rw [h.index, ← List.map_take, List.map_map]
  rw [show ((fun ie : IndexEntry => ie.minKey) ∘ fun p : IndexEntry × Bytes => p.1) =
    fun p => p.1.minKey from rfl, List.map_take]
  rw [dataLayout, map_firstKey_layoutBlocks]
  exact hall.sublist (List.take_sublist _ _)

/-- **The block a lookup searches.** Only when the whole index was written does
it have to be the block that can hold the key. -/
theorem OpenedOn.get_block (h : t.OpenedOn es) {key : Bytes}
    (hmay : mayContain t.bloomFilter key = true) (hne : es ≠ []) :
    ∃ pre b post, blocksOf es = pre ++ b :: post ∧
      (pre = [] ∨ pre.length < (blocksOf es).length % 2 ^ 32) ∧
      (encodeBlock b (decide (post ≠ []))).length < 2 ^ 32 ∧
      t.get key = findBlock (encodeBlock b (decide (post ≠ [])))
        (encodeBlock b (decide (post ≠ []))).length key ∧
      ((blocksOf es).length < 2 ^ 32 → SortedMap.lookup key es = SortedMap.lookup key b) := by
  have hget := get_of_mayContain h.bits_lt hmay
  by_cases hindex : t.index = []
  · -- no index entry was read back: the search goes to the first block
    have hblocks : blocksOf es ≠ [] := fun hnil => hne (blocksOf_eq_nil.mp hnil)
    obtain ⟨b, post, hbs⟩ := List.exists_cons_of_ne_nil hblocks
    have hfirst : (dataLayout es).map (·.1) =
        [] ++ ⟨firstKey b, 0⟩ :: ((layoutBlocks (encodeBlock b (decide (post ≠ []))).length
          post).map (·.1)) := by
      rw [dataLayout, hbs, layoutBlocks, List.map_cons, Nat.zero_add]
      rfl
    obtain ⟨pre, b', post', hbs', hpre, -, -, hsize, hfind, -⟩ := h.block hfirst
    have hpre' : pre = [] := List.length_eq_zero_iff.mp hpre
    refine ⟨pre, b', post', hbs', Or.inl hpre', hsize, ?_, ?_⟩
    · rw [hget, hindex, seekIndex_nil]
      exact hfind key
    · intro hlt
      -- an empty index means a multiple of `2 ^ 32` blocks, here none
      have hlen := h.index
      rw [hindex, Nat.mod_eq_of_lt hlt] at hlen
      have := congrArg List.length hlen
      rw [List.length_take, List.length_map, dataLayout, length_layoutBlocks, hbs'] at this
      simp at this
  · obtain ⟨ipre, ie, isuf, hsplit, hseek, hbefore, hafter⟩ := seekIndex_spec key h.index_sorted hindex
    have hlen : ipre.length < (blocksOf es).length % 2 ^ 32 := by
      have hle : t.index.length ≤ (blocksOf es).length % 2 ^ 32 := by
        rw [h.index, List.length_take]
        exact min_le_left _ _
      rw [hsplit, List.length_append, List.length_cons] at hle
      omega
    have hall : (dataLayout es).map (·.1) = ipre ++ ie :: (isuf ++
        ((dataLayout es).map (·.1)).drop ((blocksOf es).length % 2 ^ 32)) := by
      conv_lhs => rw [← List.take_append_drop ((blocksOf es).length % 2 ^ 32)
        ((dataLayout es).map (·.1)), ← h.index, hsplit]
      rw [List.append_assoc, List.cons_append]
    obtain ⟨pre, b, post, hbs, hpre, hpost, hmin, hsize, hfind, -⟩ := h.block hall
    refine ⟨pre, b, post, hbs, Or.inr (hpre ▸ hlen), hsize, ?_, ?_⟩
    · rw [hget, hseek]
      exact hfind key
    · intro hlt
      obtain ⟨hes, hb, hbsorted, hbelow, habove⟩ := h.entries hbs
      -- the index is complete, so every later block starts above the key
      have hdrop : ((dataLayout es).map (·.1)).drop ((blocksOf es).length % 2 ^ 32) = [] := by
        apply List.drop_eq_nil_of_le
        rw [List.length_map, dataLayout, length_layoutBlocks, Nat.mod_eq_of_lt hlt]
      rw [hdrop, List.append_nil] at hpost
      have hpostKeys : ∀ y ∈ post.flatten, y.1 ≠ key := by
        intro y hy heq
        obtain ⟨c, hc, hyc⟩ := List.mem_flatten.mp hy
        have hck : firstKey c ∈ isuf.map (·.minKey) := by
          rw [hpost]
          exact List.mem_map_of_mem hc
        obtain ⟨x, hx, hxkey⟩ := List.mem_map.mp hck
        obtain ⟨p₁, p₂, rfl⟩ := List.append_of_mem hc
        obtain ⟨-, -, hcsorted, -, -⟩ := h.entries
          (show blocksOf es = (pre ++ b :: p₁) ++ c :: p₂ by rw [hbs]; simp)
        have hle := firstKey_le hcsorted hyc
        have hkey := hafter x hx
        rw [hxkey] at hkey
        rw [heq] at hle
        exact absurd hkey hle.not_gt
      -- keys of earlier blocks are below the first key of this one, which is at most the key
      have hpreKeys : ∀ y ∈ pre.flatten, y.1 ≠ key := by
        intro y hy heq
        rcases hbefore with hnil | hle
        · rw [hnil, List.length_nil] at hpre
          rw [List.length_eq_zero_iff.mp hpre] at hy
          exact absurd hy List.not_mem_nil
        · obtain ⟨x, hx, hxkey⟩ := firstKey_mem hb
          have hlt := hbelow y hy x hx
          rw [hxkey, ← hmin, heq] at hlt
          exact absurd hlt hle.not_gt
      -- so the entries have the key where the block has it
      apply Option.ext
      intro v
      rw [SortedMap.lookup_eq_some_of_sorted h.sorted, SortedMap.lookup_eq_some_of_sorted hbsorted]
      constructor
      · intro hmem
        rw [hes, List.mem_append, List.mem_append] at hmem
        rcases hmem with hmem | hmem | hmem
        · exact absurd rfl (hpreKeys _ hmem)
        · exact hmem
        · exact absurd rfl (hpostKeys _ hmem)
      · intro hmem
        rw [hes]
        exact List.mem_append_right _ (List.mem_append_left _ hmem)

/-- A block that has a key does not come before one that has it as well. -/
theorem ReadBack.not_before (h : t.ReadBack es) {pre post pre' post' : List (List Entry)}
    {b b' : List Entry} (hbs : blocksOf es = pre ++ b :: post)
    (hbs' : blocksOf es = pre' ++ b' :: post') {x y : Entry} (hx : x ∈ b) (hy : y ∈ b')
    (hxy : x.1 = y.1) : pre'.length ≤ pre.length := by
  by_contra hlt
  rw [not_le] at hlt
  obtain ⟨-, -, -, hbelow, -⟩ := h.entries hbs'
  have hmem : b ∈ pre' := by
    have hget : (blocksOf es)[pre.length]? = some b := by rw [hbs]; simp
    rw [hbs', List.getElem?_append_left hlt] at hget
    exact List.mem_of_getElem? hget
  have := hbelow x (List.mem_flatten.mpr ⟨b, hmem, hx⟩) y hy
  exact absurd hxy this.ne

/-- A key lies in one block only. -/
theorem ReadBack.block_unique (h : t.ReadBack es) {pre post pre' post' : List (List Entry)}
    {b b' : List Entry} (hbs : blocksOf es = pre ++ b :: post)
    (hbs' : blocksOf es = pre' ++ b' :: post') {x y : Entry} (hx : x ∈ b) (hy : y ∈ b')
    (hxy : x.1 = y.1) : pre = pre' ∧ b = b' ∧ post = post' := by
  have hle := h.not_before hbs hbs' hx hy hxy
  have hge := h.not_before hbs' hbs hy hx hxy.symm
  obtain ⟨hpre, hrest⟩ := List.append_inj (hbs.symm.trans hbs') (le_antisymm hge hle)
  exact ⟨hpre, List.cons.inj hrest⟩

/-- A table without entries has no block to search. -/
theorem OpenedOn.get_nil (h : t.OpenedOn es) (hes : es = []) (key : Bytes) :
    t.get key = .ok none := by
  have hblocks : blocksOf es = [] := blocksOf_eq_nil.mpr hes
  have hindex : t.index = [] := by
    rw [h.index, dataLayout, hblocks]
    rfl
  have hend : t.dataEnd = 0 := by
    rw [h.dataEnd, dataLayout, hblocks]
    rfl
  rw [SSTable.get, if_neg h.bits_lt.not_ge, hindex, seekIndex_nil]
  split
  · rfl
  · show t.findInBlock 0 key = .ok none
    rw [findInBlock, wrapping_eq (by norm_num), if_pos (by omega)]
    rfl

/-- A key that the filter rules out was not stored. -/
theorem OpenedOn.lookup_of_bloom (h : t.OpenedOn es) {key : Bytes}
    (hmay : mayContain t.bloomFilter key = false) : SortedMap.lookup key es = none := by
  apply lookup_eq_none
  intro e he heq
  have hyes := mayContain_buildBloom he
  rw [← h.bloom, heq, hmay] at hyes
  exact absurd hyes (by simp)

/-- **Nothing is made up.** A lookup succeeds, and a value it returns is the one
stored with the key. -/
theorem OpenedOn.get_sound (h : t.OpenedOn es) (key : Bytes) :
    ∃ r, t.get key = .ok r ∧ ∀ v, r = some v → SortedMap.lookup key es = some v := by
  -- the filter ends the lookup, or the index leads to a block
  cases hmay : mayContain t.bloomFilter key with
  | false =>
    refine ⟨none, ?_, fun v hv => absurd hv (by simp)⟩
    exact get_of_not_mayContain h.bits_lt hmay
  | true =>
    by_cases hne : es = []
    · exact ⟨none, h.get_nil hne key, fun v hv => absurd hv (by simp)⟩
    · obtain ⟨pre, b, post, hbs, -, hsize, hget, -⟩ := h.get_block hmay hne
      obtain ⟨hes, hb, hbsorted, -, -⟩ := h.entries hbs
      obtain ⟨r, hr, hor⟩ := findBlock_spec hb hsize hbsorted key
      refine ⟨r, hget.trans hr, ?_⟩
      intro v hv
      rcases hor with hlookup | ⟨hnone, -⟩
      · rw [hv] at hlookup
        have hmem := (SortedMap.lookup_eq_some_of_sorted hbsorted).mp hlookup.symm
        rw [SortedMap.lookup_eq_some_of_sorted h.sorted, hes]
        exact List.mem_append_right _ (List.mem_append_left _ hmem)
      · rw [hnone] at hv
        exact absurd hv (by simp)

end Opened

/-- Neither defect of the format bites: the number of blocks fits 32 bits, and
no block but the last has a multiple of sixteen entries while its dangling key
is below its last key. -/
def Searchable (es : List Entry) : Prop :=
  (blocksOf es).length < 2 ^ 32 ∧
    ∀ b ∈ (blocksOf es).dropLast, b.length % 16 = 0 → ∀ e ∈ b.getLast?, ¬ danglingKey b < e.1

instance (es : List Entry) : Decidable (Searchable es) := by
  unfold Searchable
  infer_instance

section Exact

variable {t : SSTable} {es : List Entry}

/-- An element that is not the last one has another behind it. -/
theorem mem_dropLast_iff {α : Type} {l : List α} {x : α} :
    x ∈ l.dropLast ↔ ∃ pre post, l = pre ++ x :: post ∧ post ≠ [] := by
  constructor
  · intro hx
    have hne : l ≠ [] := by
      rintro rfl
      exact absurd hx List.not_mem_nil
    obtain ⟨pre, suf, hsplit⟩ := List.append_of_mem hx
    refine ⟨pre, suf ++ [l.getLast hne], ?_, by simp⟩
    rw [← List.cons_append, ← List.append_assoc, ← hsplit, List.dropLast_append_getLast]
  · rintro ⟨pre, post, rfl, hpost⟩
    rw [List.dropLast_append_of_ne_nil (List.cons_ne_nil x post), List.dropLast_cons_of_ne_nil hpost]
    simp

/-- In a searchable table every lookup is right. -/
theorem OpenedOn.get_exact (h : t.OpenedOn es) (hs : Searchable es) (key : Bytes) :
    t.get key = .ok (SortedMap.lookup key es) := by
  cases hmay : mayContain t.bloomFilter key with
  | false => rw [get_of_not_mayContain h.bits_lt hmay, h.lookup_of_bloom hmay]
  | true =>
    by_cases hne : es = []
    · rw [h.get_nil hne, hne]
      rfl
    · obtain ⟨pre, b, post, hbs, -, hsize, hget, hexact⟩ := h.get_block hmay hne
      obtain ⟨-, hb, hbsorted, -, -⟩ := h.entries hbs
      obtain ⟨r, hr, hor⟩ := findBlock_spec hb hsize hbsorted key
      rw [hget, hr, hexact hs.1]
      rcases hor with rfl | ⟨rfl, hdang, hlt⟩
      · rfl
      · -- the search ended behind the block, but the key is above its last key
        rw [dangling, Bool.and_eq_true, decide_eq_true_eq, beq_iff_eq] at hdang
        have hlast := hs.2 b (mem_dropLast_iff.mpr ⟨pre, post, hbs, hdang.1⟩) hdang.2 (b.getLast hb)
          (List.getLast?_eq_some_getLast hb)
        rw [lookup_eq_none]
        intro e he heq
        have hle := le_getLast hbsorted he hb
        rw [heq] at hle
        exact hlast (hlt.trans_le hle)

/-- A table that is not searchable misses a key that it holds. -/
theorem OpenedOn.exists_missed (h : t.OpenedOn es) (hs : ¬ Searchable es) :
    ∃ e ∈ es, t.get e.1 = .ok none := by
  by_contra hall
  have hfound : ∀ e ∈ es, ∃ v, t.get e.1 = .ok (some v) := by
    intro e he
    obtain ⟨r, hr, -⟩ := h.get_sound e.1
    cases r with
    | none => exact absurd ⟨e, he, hr⟩ hall
    | some v => exact ⟨v, hr⟩
  -- whatever block the lookup of an entry searches, it is the block of the entry
  have hblock : ∀ pre b post, blocksOf es = pre ++ b :: post → ∀ e ∈ b,
      (pre = [] ∨ pre.length < (blocksOf es).length % 2 ^ 32) ∧
      (encodeBlock b (decide (post ≠ []))).length < 2 ^ 32 ∧
      ∃ v, findBlock (encodeBlock b (decide (post ≠ [])))
        (encodeBlock b (decide (post ≠ []))).length e.1 = .ok (some v) := by
    intro pre b post hbs e he
    obtain ⟨hes, -, -, -, -⟩ := h.entries hbs
    have hmem : e ∈ es := by
      rw [hes]
      exact List.mem_append_right _ (List.mem_append_left _ he)
    obtain ⟨v, hv⟩ := hfound e hmem
    have hmay : mayContain t.bloomFilter e.1 = true := by
      rw [h.bloom]
      exact mayContain_buildBloom hmem
    obtain ⟨pre', b', post', hbs', hpos, hsize, hget, -⟩ :=
      h.get_block hmay (List.ne_nil_of_mem hmem)
    obtain ⟨-, hb', hbsorted', -, -⟩ := h.entries hbs'
    obtain ⟨r, hr, hor⟩ := findBlock_spec hb' hsize hbsorted' e.1
    have hrv : r = some v := Except.ok.inj (hr.symm.trans (hget.symm.trans hv))
    rcases hor with hlookup | ⟨hnone, -⟩
    · rw [hrv] at hlookup
      have hin := (SortedMap.lookup_eq_some_of_sorted hbsorted').mp hlookup.symm
      obtain ⟨rfl, rfl, rfl⟩ := h.block_unique hbs hbs' he hin rfl
      exact ⟨hpos, hsize, v, hget.symm.trans hv⟩
    · rw [hrv] at hnone
      exact absurd hnone (by simp)
  apply hs
  constructor
  · -- the last block is in the index only when nothing was truncated
    by_contra hge
    have hne : blocksOf es ≠ [] := by
      intro hnil
      rw [hnil] at hge
      exact hge (by norm_num)
    have hbs : blocksOf es = (blocksOf es).dropLast ++ (blocksOf es).getLast hne :: [] :=
      (List.dropLast_append_getLast hne).symm
    obtain ⟨-, hb, -, -, -⟩ := h.entries hbs
    obtain ⟨e, he⟩ := List.exists_mem_of_ne_nil _ hb
    obtain ⟨hpos, -, -⟩ := hblock _ _ _ hbs e he
    have hlen := (blocksOf es).length_dropLast
    rcases hpos with hnil | hlt
    · rw [hnil, List.length_nil] at hlen
      omega
    · omega
  -- a block that ends at a bad restart misses its last key
  · intro b hb hmod e he hlt
    obtain ⟨pre, post, hbs, hpost⟩ := mem_dropLast_iff.mp hb
    obtain ⟨-, hne, hbsorted, -, -⟩ := h.entries hbs
    rw [Option.mem_def, List.getLast?_eq_some_getLast hne, Option.some_inj] at he
    subst he
    obtain ⟨-, hsize, v, hv⟩ := hblock _ _ _ hbs _ (List.getLast_mem hne)
    have hdang : dangling b (decide (post ≠ [])) = true := by
      rw [decide_eq_true hpost, dangling_true]
      exact decide_eq_true hmod
    rw [findBlock_dangling hne hsize hbsorted hdang hlt] at hv
    exact absurd hv (by simp)

end Exact

/-- **When lookups are exact.** After ascending entries are written and the file is
reopened, every lookup is right if and only if the table is searchable. A lookup is right
when it returns what the entries have for the key, or nothing where they have none.

Hypotheses:
* `hsorted` — the entries are in strictly ascending order of keys, as a memtable and a
  compaction give them to `create`;
* `hfit` — blocks fit their size fields, which only an entry of about four gigabytes can
  prevent;
* `hcreate` — the file is the one that `create` writes. -/
theorem lookups_exact_iff {es : List Entry} {file : Bytes}
    (hsorted : es.Pairwise fun a b => a.1 < b.1) (hfit : BlocksFit es)
    (hcreate : create es = .ok file) :
    (∃ t, openFile file = .ok t ∧ ∀ key, t.get key = .ok (SortedMap.lookup key es)) ↔
      Searchable es := by
  obtain ⟨t, hopen, h⟩ := openFile_create hcreate hsorted hfit
  constructor
  · rintro ⟨t', hopen', hexact⟩
    obtain rfl : t = t' := Except.ok.inj (hopen.symm.trans hopen')
    by_contra hs
    obtain ⟨e, he, hmissed⟩ := h.exists_missed hs
    have hstored : SortedMap.lookup e.1 es = some e.2 :=
      (SortedMap.lookup_eq_some_of_sorted hsorted).mpr he
    rw [hexact, hstored] at hmissed
    exact absurd hmissed (by simp)
  · intro hs
    exact ⟨t, hopen, h.get_exact hs⟩

/-- Thirty-two small entries, a large one and another small one. The first of its three
blocks is closed at a restart boundary, but no search ends at its dangling restart: the
bytes there read as a key above all keys of the block. -/
def boundarySample : List Entry :=
  ((List.range 32).map fun i => ([UInt8.ofNat i], [1])) ++
    [([32], List.replicate 4096 0), ([33], [1])]

/-- It has three blocks and is searchable. -/
theorem boundarySample_blocks :
    (blocksOf boundarySample).map List.length = [32, 1, 1] ∧ Searchable boundarySample := by
  decide +kernel

/-- Every lookup in it is right. -/
theorem lookups_exact_iff_boundary : ∃ file t, create boundarySample = .ok file ∧
    openFile file = .ok t ∧ ∀ key, t.get key = .ok (SortedMap.lookup key boundarySample) := by
  obtain ⟨file, hcreate⟩ := Except.exists_eq_ok (x := create boundarySample) (by decide +kernel)
  have hsorted : boundarySample.Pairwise fun a b => a.1 < b.1 := by decide +kernel
  obtain ⟨t, hopen, hget⟩ :=
    (lookups_exact_iff hsorted (by decide +kernel) hcreate).mpr boundarySample_blocks.2
  exact ⟨file, t, hcreate, hopen, hget⟩

/-- Sixteen small entries and a large one: the first block is closed after
sixteen entries, and a search for its last key ends at the dangling restart. -/
theorem lookup_misses_stored_key :
    let es : List Entry := ((List.range 16).map fun i => ([UInt8.ofNat (200 + i)], [1])) ++
      [([216], List.replicate 4096 0)]
    (es.Pairwise fun a b => a.1 < b.1) ∧ BlocksFit es ∧ ([215], [1]) ∈ es ∧
      (create es >>= openFile >>= fun t => t.get [215]) = .ok none := by
  decide +kernel

end SSTable

end Zenith
