import Zenith.Lib.Bytes

/-!
# Line-framed streams

A reader of newline-terminated lines that gets its input in chunks: it keeps a buffer,
handles every complete line in it and carries the rest over to the next chunk. Its handler
is a state transformer `f : σ → Bytes → σ`.

A reader of this kind is right when nobody can tell where the chunks were cut. That is the
first result, and with it every further statement can be made about the content as a whole.
It also says what becomes of a torn write: text behind the last newline is never handled,
and when more is written behind it, the two make up one line.

* `readAll_eq` — however a content is cut into chunks, the reader applies the handler to the
  complete lines of the whole content, once each and in order.
* `completeLines_line` — a line written with its newline is read back as one line, and
  `completeLines_append` splits a content at any point.
* `fields` — splitting at a delimiter as `std::getline` does, where a trailing empty field
  is dropped; `fields_append` and `fields_of_not_mem` compute it.

The recursive functions carry the open line, or the open field, as an argument. Lemmas about
them are by induction on the text and hold for every open line, and the results instantiate
it with the empty one.
-/

namespace Lines

/-- Cuts at the first occurrence of `c`, dropping it. -/
def cut (c : UInt8) : Bytes → Option (Bytes × Bytes)
  | [] => none
  | b :: bs => if b = c then some ([], bs) else (cut c bs).map fun p => (b :: p.1, p.2)

/-- What is in front of the first occurrence. -/
theorem cut_eq_some {c : UInt8} {bs line rest : Bytes} (h : cut c bs = some (line, rest)) :
    c ∉ line ∧ bs = line ++ c :: rest := by
  induction bs generalizing line with
  | nil => simp [cut] at h
  | cons b bs ih =>
    rw [cut] at h
    split at h
    · next hb =>
      obtain ⟨rfl, rfl⟩ := Prod.mk.inj (Option.some.inj h)
      exact ⟨List.not_mem_nil, by rw [hb]; rfl⟩
    · next hb =>
      obtain ⟨⟨line', rest'⟩, hcut, heq⟩ := Option.map_eq_some_iff.mp h
      obtain ⟨rfl, rfl⟩ := Prod.mk.inj heq
      obtain ⟨hnot, rfl⟩ := ih hcut
      refine ⟨?_, rfl⟩
      rw [List.mem_cons, not_or]
      exact ⟨Ne.symm hb, hnot⟩

/-- There is none. -/
theorem cut_eq_none {c : UInt8} {bs : Bytes} (h : cut c bs = none) : c ∉ bs := by
  induction bs with
  | nil => exact List.not_mem_nil
  | cons b bs ih =>
    rw [cut] at h
    split at h
    · exact absurd h (by simp)
    · next hb =>
      rw [List.mem_cons, not_or]
      exact ⟨Ne.symm hb, ih (Option.map_eq_none_iff.mp h)⟩

/-- The byte that ends a line. -/
def newline : UInt8 := 10

/-! ## The chunked reader -/

section Reader

variable {σ : Type*} (f : σ → Bytes → σ)

/-- Handles every complete line of the buffer and returns what is left of it. -/
def drain (s : σ) (buf : Bytes) : σ × Bytes :=
  match _h : cut newline buf with
  | none => (s, buf)
  | some (line, rest) => drain (f s line) rest
termination_by buf.length
decreasing_by
  obtain ⟨-, rfl⟩ := cut_eq_some _h
  simp
  omega

/-- Reads chunk after chunk until an empty one; `leftover` is the partial line
carried over. -/
def readAll (s : σ) (leftover : Bytes) : List Bytes → σ
  | [] => s
  | chunk :: chunks =>
    if chunk = [] then s
    else
      let p := drain f s (leftover ++ chunk)
      readAll p.1 p.2 chunks

end Reader

/-! ## The lines of a whole content -/

/-- The newline-terminated lines of a content, `cur` being the open line. -/
def linesFrom (cur : Bytes) : Bytes → List Bytes
  | [] => []
  | b :: bs => if b = newline then cur :: linesFrom [] bs else linesFrom (cur ++ [b]) bs

/-- What follows the last newline. -/
def tailFrom (cur : Bytes) : Bytes → Bytes
  | [] => cur
  | b :: bs => if b = newline then tailFrom [] bs else tailFrom (cur ++ [b]) bs

/-- The complete lines of a content, without their newlines. -/
def completeLines (content : Bytes) : List Bytes := linesFrom [] content

/-- The lines of two texts: the open line of the first goes on in the second. -/
theorem linesFrom_append (cur a b : Bytes) :
    linesFrom cur (a ++ b) = linesFrom cur a ++ linesFrom (tailFrom cur a) b := by
  induction a generalizing cur with
  | nil => rfl
  | cons x a ih =>
    rw [List.cons_append, linesFrom, linesFrom, tailFrom]
    split
    · rw [ih, List.cons_append]
    · rw [ih]

/-- So does the open line behind both. -/
theorem tailFrom_append (cur a b : Bytes) :
    tailFrom cur (a ++ b) = tailFrom (tailFrom cur a) b := by
  induction a generalizing cur with
  | nil => rfl
  | cons x a ih =>
    rw [List.cons_append, tailFrom, tailFrom]
    split <;> rw [ih]

/-- Text without a newline is part of the open line. -/
theorem linesFrom_of_not_mem {a : Bytes} (h : newline ∉ a) (cur : Bytes) :
    linesFrom cur a = [] ∧ tailFrom cur a = cur ++ a := by
  induction a generalizing cur with
  | nil => exact ⟨rfl, (List.append_nil cur).symm⟩
  | cons x a ih =>
    rw [List.mem_cons, not_or] at h
    obtain ⟨hlines, htail⟩ := ih h.2 (cur ++ [x])
    rw [linesFrom, tailFrom, if_neg (Ne.symm h.1), if_neg (Ne.symm h.1), hlines, htail]
    exact ⟨rfl, by rw [List.append_assoc]; rfl⟩

/-- A line followed by its newline. -/
theorem linesFrom_line {line : Bytes} (h : newline ∉ line) (cur rest : Bytes) :
    linesFrom cur (line ++ newline :: rest) = (cur ++ line) :: linesFrom [] rest ∧
      tailFrom cur (line ++ newline :: rest) = tailFrom [] rest := by
  obtain ⟨hlines, htail⟩ := linesFrom_of_not_mem h cur
  rw [linesFrom_append, tailFrom_append, hlines, htail, linesFrom, tailFrom, if_pos rfl,
    if_pos rfl]
  exact ⟨rfl, rfl⟩

/-- A line written with its newline is read back as one line. -/
theorem completeLines_line {line : Bytes} (h : newline ∉ line) (rest : Bytes) :
    completeLines (line ++ newline :: rest) = line :: completeLines rest :=
  (linesFrom_line h [] rest).1

/-- Text behind the last newline adds no line. -/
theorem completeLines_append_tail {tail : Bytes} (h : newline ∉ tail) (content : Bytes) :
    completeLines (content ++ tail) = completeLines content := by
  rw [completeLines, linesFrom_append, (linesFrom_of_not_mem h _).1, List.append_nil]
  rfl

/-- The first bytes of a line are the whole line or have no newline. -/
theorem take_line {line : Bytes} (h : newline ∉ line) (n : Nat) :
    (line ++ [newline]).take n = line ++ [newline] ∨ newline ∉ (line ++ [newline]).take n := by
  rcases Nat.lt_or_ge line.length n with hlt | hle
  · left
    rw [List.take_of_length_le]
    rw [List.length_append, List.length_singleton]
    exact hlt
  · right
    rw [List.take_append_of_le_length hle]
    exact fun hmem => h (List.mem_of_mem_take hmem)

/-- No complete line contains a newline. -/
theorem newline_not_mem_of_mem_linesFrom {cur content line : Bytes} (hcur : newline ∉ cur)
    (h : line ∈ linesFrom cur content) : newline ∉ line := by
  induction content generalizing cur with
  | nil => simp [linesFrom] at h
  | cons b bs ih =>
    rw [linesFrom] at h
    split at h
    · rcases List.mem_cons.mp h with rfl | hmem
      · exact hcur
      · exact ih List.not_mem_nil hmem
    · next hb =>
      refine ih ?_ h
      rw [List.mem_append, not_or, List.mem_singleton]
      exact ⟨hcur, Ne.symm hb⟩

section Reader

variable {σ : Type*} {f : σ → Bytes → σ}

/-- One round of the reader handles the complete lines of its buffer. -/
theorem drain_eq (s : σ) (buf : Bytes) :
    drain f s buf = ((completeLines buf).foldl f s, tailFrom [] buf) := by
  -- along the loop, which takes the first line off the buffer
  induction s, buf using drain.induct f with
  | case1 s buf hcut =>
    obtain ⟨hlines, htail⟩ := linesFrom_of_not_mem (cut_eq_none hcut) []
    rw [drain]
    split
    · rw [completeLines, hlines, htail]
      rfl
    · next h => rw [hcut] at h; exact absurd h (by simp)
  | case2 s buf line rest hcut ih =>
    obtain ⟨hline, hbuf⟩ := cut_eq_some hcut
    rw [drain]
    split
    · next h => rw [hcut] at h; exact absurd h (by simp)
    · next line' rest' h =>
      rw [hcut] at h
      obtain ⟨rfl, rfl⟩ := Prod.mk.inj (Option.some.inj h)
      subst hbuf
      rw [ih, completeLines_line hline]
      rw [show tailFrom [] (line ++ newline :: rest) = tailFrom [] rest from
        (linesFrom_line hline [] rest).2]
      rfl

/-- The open line has no newline. -/
theorem newline_not_mem_tailFrom {cur : Bytes} (hcur : newline ∉ cur) (buf : Bytes) :
    newline ∉ tailFrom cur buf := by
  induction buf generalizing cur with
  | nil => exact hcur
  | cons b bs ih =>
    rw [tailFrom]
    split
    · exact ih List.not_mem_nil
    · next hb =>
      apply ih
      rw [List.mem_append, not_or, List.mem_singleton]
      exact ⟨hcur, Ne.symm hb⟩

/-- By induction on the chunks: what is carried over is the open line so far. -/
theorem readAll_eq_of_leftover {chunks : List Bytes} (hne : ∀ c ∈ chunks, c ≠ []) (s : σ)
    {leftover : Bytes} (hleft : newline ∉ leftover) :
    readAll f s leftover chunks = (linesFrom leftover chunks.flatten).foldl f s := by
  induction chunks generalizing s leftover with
  | nil => rfl
  | cons chunk chunks ih =>
    have htail := newline_not_mem_tailFrom (List.not_mem_nil (a := newline)) (leftover ++ chunk)
    have hrest : ∀ c ∈ chunks, c ≠ [] := by
      intro c hc
      exact hne c (List.mem_cons_of_mem _ hc)
    -- the leftover alone has no line, so it is the open line of the chunk
    have hopen : completeLines (leftover ++ chunk) = linesFrom leftover chunk ∧
        tailFrom [] (leftover ++ chunk) = tailFrom leftover chunk := by
      obtain ⟨hlines, hleftTail⟩ := linesFrom_of_not_mem hleft []
      rw [completeLines, linesFrom_append, tailFrom_append, hlines, hleftTail]
      exact ⟨rfl, rfl⟩
    rw [readAll, if_neg (hne chunk (List.mem_cons_self ..)), drain_eq]
    show readAll f ((completeLines (leftover ++ chunk)).foldl f s)
      (tailFrom [] (leftover ++ chunk)) chunks = _
    rw [ih hrest _ htail, hopen.1, hopen.2, List.flatten_cons, linesFrom_append,
      List.foldl_append]

/-- **Chunking does not matter.** Reading a content in non-empty chunks applies
the handler to its complete lines, in order and once each. -/
theorem readAll_eq {chunks : List Bytes} (hne : ∀ c ∈ chunks, c ≠ []) (s : σ) :
    readAll f s [] chunks = (completeLines chunks.flatten).foldl f s :=
  readAll_eq_of_leftover hne s List.not_mem_nil

/-- **Torn lines.** A reader does not see what follows the last newline. -/
theorem readAll_append_tail {chunks chunks' : List Bytes} (hne : ∀ c ∈ chunks, c ≠ [])
    (hne' : ∀ c ∈ chunks', c ≠ []) {tail : Bytes} (htail : newline ∉ tail)
    (hflatten : chunks.flatten = chunks'.flatten ++ tail) (s : σ) :
    readAll f s [] chunks = readAll f s [] chunks' := by
  rw [readAll_eq hne, readAll_eq hne', hflatten, completeLines_append_tail htail]

end Reader

/-! ## Delimited fields -/

/-- The fields of a text, `cur` being the open field. As with `std::getline`,
an empty field after the last delimiter is not a field. -/
def fieldsFrom (d : UInt8) (cur : Bytes) : Bytes → List Bytes
  | [] => if cur = [] then [] else [cur]
  | b :: bs => if b = d then cur :: fieldsFrom d [] bs else fieldsFrom d (cur ++ [b]) bs

/-- The fields of a whole text. -/
def fields (d : UInt8) (text : Bytes) : List Bytes := fieldsFrom d [] text

/-- Text without a delimiter is part of the open field. -/
theorem fieldsFrom_append {d : UInt8} {a : Bytes} (h : d ∉ a) (cur rest : Bytes) :
    fieldsFrom d cur (a ++ rest) = fieldsFrom d (cur ++ a) rest := by
  induction a generalizing cur with
  | nil => rw [List.append_nil]; rfl
  | cons x a ih =>
    rw [List.mem_cons, not_or] at h
    rw [List.cons_append, fieldsFrom, if_neg (Ne.symm h.1), ih h.2, List.append_assoc]
    rfl

/-- There are no more fields than bytes, and no field is longer than the text. -/
theorem length_fieldsFrom_le (d : UInt8) (cur text : Bytes) :
    (fieldsFrom d cur text).length ≤ cur.length + text.length ∧
      ∀ x ∈ fieldsFrom d cur text, x.length ≤ cur.length + text.length := by
  -- a delimiter closes the field, and any other byte makes it longer by one
  induction text generalizing cur with
  | nil =>
    rw [fieldsFrom]
    split
    · exact ⟨Nat.zero_le _, fun x hx => absurd hx List.not_mem_nil⟩
    · next hne =>
      refine ⟨List.length_pos_of_ne_nil hne, fun x hx => ?_⟩
      rw [List.mem_singleton.mp hx]
      exact Nat.le_add_right ..
  | cons b bs ih =>
    rw [fieldsFrom, List.length_cons]
    split
    · obtain ⟨hcount, hlength⟩ := ih []
      rw [List.length_nil] at hcount hlength
      refine ⟨by rw [List.length_cons]; omega, List.forall_mem_cons.mpr ⟨by omega, ?_⟩⟩
      intro x hx
      have := hlength x hx
      omega
    · obtain ⟨hcount, hlength⟩ := ih (cur ++ [b])
      rw [List.length_append, List.length_singleton] at hcount hlength
      refine ⟨by omega, fun x hx => ?_⟩
      have := hlength x hx
      omega

/-- A field followed by its delimiter. -/
theorem fields_append {d : UInt8} {a : Bytes} (h : d ∉ a) (rest : Bytes) :
    fields d (a ++ d :: rest) = a :: fields d rest := by
  rw [fields, fieldsFrom_append h, fieldsFrom, if_pos rfl]
  rfl

/-- A last field without its delimiter. -/
theorem fields_of_not_mem {d : UInt8} {a : Bytes} (h : d ∉ a) (hne : a ≠ []) :
    fields d a = [a] := by
  have hend := fieldsFrom_append h [] []
  rw [List.append_nil] at hend
  rw [fields, hend, fieldsFrom, List.nil_append, if_neg hne]

/-- Splitting in two steps: the fields that a text closes, and the field that it
leaves open. With no field closed all of it is in the open one. -/
theorem fieldsFrom_append_text (d : UInt8) (cur text : Bytes) :
    ∃ closed last, (∀ rest, fieldsFrom d cur (text ++ rest) = closed ++ fieldsFrom d last rest) ∧
      (closed = [] → last = cur ++ text) := by
  induction text generalizing cur with
  | nil => exact ⟨[], cur, fun _ => rfl, fun _ => (List.append_nil cur).symm⟩
  | cons b text ih =>
    by_cases hb : b = d
    · obtain ⟨closed, last, hfields, -⟩ := ih []
      refine ⟨cur :: closed, last, fun rest => ?_, fun h => absurd h (by simp)⟩
      rw [List.cons_append, fieldsFrom, if_pos hb, hfields, List.cons_append]
    · obtain ⟨closed, last, hfields, hopen⟩ := ih (cur ++ [b])
      refine ⟨closed, last, fun rest => ?_, fun h => ?_⟩
      · rw [List.cons_append, fieldsFrom, if_neg hb, hfields]
      · rw [hopen h, List.append_assoc]
        rfl

/-- No field contains the delimiter, and every byte of a field is a byte of the
text. -/
theorem of_mem_fieldsFrom {d : UInt8} {cur text x : Bytes} (hcur : d ∉ cur)
    (h : x ∈ fieldsFrom d cur text) : d ∉ x ∧ ∀ b ∈ x, b ∈ cur ∨ b ∈ text := by
  -- a field is what was there already and bytes of the text up to a delimiter
  induction text generalizing cur with
  | nil =>
    rw [fieldsFrom] at h
    split at h
    · exact absurd h List.not_mem_nil
    · rw [List.mem_singleton] at h
      subst h
      exact ⟨hcur, fun b hb => Or.inl hb⟩
  | cons b bs ih =>
    rw [fieldsFrom] at h
    split at h
    · rcases List.mem_cons.mp h with rfl | hmem
      · exact ⟨hcur, fun b hb => Or.inl hb⟩
      · obtain ⟨hd, hsub⟩ := ih List.not_mem_nil hmem
        refine ⟨hd, fun c hc => Or.inr (List.mem_cons_of_mem _ ?_)⟩
        exact (hsub c hc).resolve_left List.not_mem_nil
    · next hb =>
      have hopen : d ∉ cur ++ [b] := by
        rw [List.mem_append, not_or, List.mem_singleton]
        exact ⟨hcur, Ne.symm hb⟩
      obtain ⟨hd, hsub⟩ := ih hopen h
      refine ⟨hd, fun c hc => ?_⟩
      rcases hsub c hc with hc | hc
      · rcases List.mem_append.mp hc with hc | hc
        · exact Or.inl hc
        · exact Or.inr (List.mem_cons.mpr (Or.inl (List.mem_singleton.mp hc)))
      · exact Or.inr (List.mem_cons_of_mem _ hc)

end Lines
