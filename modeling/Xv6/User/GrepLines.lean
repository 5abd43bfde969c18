import Xv6.User.Grep

/-! # The lines of grep

    The loop of `grep` reads into a buffer of 1024 bytes, behind the part of a
    line that the last round has left at its front. The buffer is the list of
    its first `m` bytes; `p` is the list of those from `p` on.

    When a round finds no newline, `p == buf` holds, and the loop takes that
    for a line that is too long: it sets `m` to 0 and forgets what it has. But
    the line may just not have arrived completely.
-/

namespace Xv6.Grep

/-- `'\n'` -/
abbrev NEWLINE : Byte := 0x0a

/-- `sizeof(buf)` -/
abbrev BUFSIZE : Nat := 1024

/-! ## The program -/

/-- `strchr`: the bytes before the first `c`, and those after it. -/
def strchr (c : Byte) : (s : List Byte) → Option (List Byte × List Byte)
  | [] => none
  | b :: s =>
    if b = 0 then none
    else if b = c then some ([], s)
    else match strchr c s with
      | none => none
      | some (before, after) => some (b :: before, after)

/-- The inner loop: what it writes, and `p` in the end. Every round shortens
    `p`, so `fuel` is its length. -/
def grep_lines (pattern : List Byte) : (fuel : Nat) → (p : List Byte) → List Byte × List Byte
  | 0, p => ([], p)
  | fuel + 1, p =>
    match strchr NEWLINE p with
    | none => ([], p)
    | some (line, p) =>
      let (out, p) := grep_lines pattern fuel p
      (if «match» pattern line then line ++ NEWLINE :: out else out, p)

/-- What is left in the buffer, which was `buf` before the inner loop ended at
    `p`. -/
def grep_rest (buf p : List Byte) : List Byte :=
  -- if(p == buf) m = 0;
  if p.length = buf.length then [] else p

/-- What `grep` writes, when `read` delivers the chunks one after the other. -/
def grep (pattern : List Byte) : (buf : List Byte) → (chunks : List (List Byte)) → List Byte
  | _, [] => []
  | buf, chunk :: chunks =>
    let (out, p) := grep_lines pattern (buf ++ chunk).length (buf ++ chunk)
    out ++ grep pattern (grep_rest (buf ++ chunk) p) chunks

/-- `read` returns at least one byte and at most as many as it was asked for,
    `sizeof(buf)-m-1`. -/
def Delivers : (buf : List Byte) → (chunks : List (List Byte)) → Prop
  | _, [] => True
  | buf, chunk :: chunks => chunk ≠ [] ∧ chunk.length ≤ BUFSIZE - buf.length - 1 ∧
      Delivers (grep_rest (buf ++ chunk) (grep_lines [] (buf ++ chunk).length (buf ++ chunk)).2) chunks

/-! ## What it should write -/

/-- The lines that are terminated by a newline. -/
def lines (input : List Byte) : List (List Byte) := (input.splitOn NEWLINE).dropLast

/-- What comes after the last newline. -/
def unfinished (input : List Byte) : List Byte := (input.splitOn NEWLINE).getLastD []

/-- The lines that match, each with its newline. -/
def matching (pattern input : List Byte) : List Byte :=
  ((lines input).filter («match» pattern)).flatMap (· ++ [NEWLINE])

variable {pattern line input rest : List Byte} {chunks : List (List Byte)}

theorem lines_cons (h : NEWLINE ∉ line) (rest : List Byte) :
    lines (line ++ NEWLINE :: rest) = line :: lines rest := by
  unfold lines
  rw [List.splitOn_append_cons_self_of_not_mem h, List.dropLast_cons_of_ne_nil (List.splitOn_ne_nil _ _)]

theorem lines_of_not_mem (h : NEWLINE ∉ input) : lines input = [] := by
  unfold lines
  rw [List.splitOn_eq_singleton h]
  rfl

theorem unfinished_cons (h : NEWLINE ∉ line) (rest : List Byte) :
    unfinished (line ++ NEWLINE :: rest) = unfinished rest := by
  unfold unfinished
  rw [List.splitOn_append_cons_self_of_not_mem h, List.getLastD_cons, List.getLastD_eq_getLast?,
    List.getLastD_eq_getLast?, List.getLast?_eq_some_getLast (List.splitOn_ne_nil _ _)]
  rfl

theorem unfinished_of_not_mem (h : NEWLINE ∉ input) : unfinished input = input := by
  unfold unfinished
  rw [List.splitOn_eq_singleton h]
  rfl

/-- Induction over the lines of an input. -/
theorem input_induction {P : List Byte → Prop} (hlast : ∀ input, NEWLINE ∉ input → P input)
    (hline : ∀ line rest, NEWLINE ∉ line → P rest → P (line ++ NEWLINE :: rest)) (input : List Byte) :
    P input := by
  by_cases h : NEWLINE ∈ input
  · obtain ⟨line, rest, heq, hline'⟩ := List.eq_append_cons_of_mem h
    have hlt : rest.length < input.length := by
      rw [heq, List.length_append, List.length_cons]
      omega
    rw [heq]
    exact hline line rest hline' (input_induction hlast hline rest)
  · exact hlast input h
termination_by input.length

theorem matching_cons (h : NEWLINE ∉ line) (rest : List Byte) :
    matching pattern (line ++ NEWLINE :: rest) =
      if «match» pattern line then line ++ NEWLINE :: matching pattern rest else matching pattern rest := by
  unfold matching
  rw [lines_cons h, List.filter_cons]
  split_ifs
  · rw [List.flatMap_cons, List.append_assoc]
    rfl
  · rfl

theorem matching_of_not_mem (h : NEWLINE ∉ input) : matching pattern input = [] := by
  unfold matching
  rw [lines_of_not_mem h]
  rfl

theorem newline_not_mem_unfinished (input : List Byte) : NEWLINE ∉ unfinished input := by
  induction input using input_induction with
  | hlast input h => rwa [unfinished_of_not_mem h]
  | hline line rest h ih => rwa [unfinished_cons h]

theorem unfinished_suffix (input : List Byte) : unfinished input <:+ input := by
  induction input using input_induction with
  | hlast input h => rw [unfinished_of_not_mem h]
  | hline line rest h ih =>
    rw [unfinished_cons h]
    exact (ih.trans (List.suffix_cons _ _)).trans (List.suffix_append _ _)

/-- What matches in two parts of the input, the first of which may end within
    a line. -/
theorem matching_append (pattern a b : List Byte) :
    matching pattern (a ++ b) = matching pattern a ++ matching pattern (unfinished a ++ b) := by
  induction a using input_induction with
  | hlast a h => rw [matching_of_not_mem h, unfinished_of_not_mem h, List.nil_append]
  | hline line rest h ih =>
    rw [List.append_assoc, List.cons_append, matching_cons h, matching_cons h, unfinished_cons h, ih]
    split_ifs
    · rw [List.append_assoc]
      rfl
    · rfl

/-! ## What a round does -/

theorem strchr_of_not_mem {c : Byte} (h : c ∉ input) : strchr c input = none := by
  induction input with
  | nil => rfl
  | cons b s ih =>
    obtain ⟨hb, hs⟩ := not_or.mp (mt List.mem_cons.mpr h)
    unfold strchr
    rw [if_neg (Ne.symm hb), ih hs]
    split_ifs <;> rfl

theorem strchr_line {c : Byte} (h0 : 0 ∉ line) (hc : c ≠ 0) (h : c ∉ line) (rest : List Byte) :
    strchr c (line ++ c :: rest) = some (line, rest) := by
  induction line with
  | nil =>
    show strchr c (c :: rest) = _
    rw [strchr, if_neg hc, if_pos rfl]
  | cons b s ih =>
    obtain ⟨hb, hs⟩ := not_or.mp (mt List.mem_cons.mpr h)
    obtain ⟨hb0, hs0⟩ := not_or.mp (mt List.mem_cons.mpr h0)
    rw [List.cons_append, strchr, if_neg (Ne.symm hb0), if_neg (Ne.symm hb), ih hs0 hs]

theorem grep_lines_eq (pattern : List Byte) (fuel : Nat) {p : List Byte} (h0 : 0 ∉ p)
    (hfuel : p.length ≤ fuel) : grep_lines pattern fuel p = (matching pattern p, unfinished p) := by
  induction p using input_induction generalizing fuel with
  | hlast p h =>
    rw [matching_of_not_mem h, unfinished_of_not_mem h]
    cases fuel with
    | zero => rfl
    | succ fuel => rw [grep_lines, strchr_of_not_mem h]
  | hline line rest h ih =>
    rw [List.length_append, List.length_cons] at hfuel
    rw [List.mem_append, List.mem_cons, not_or, not_or] at h0
    obtain ⟨fuel, rfl⟩ : ∃ k, fuel = k + 1 := ⟨fuel - 1, by omega⟩
    rw [grep_lines, strchr_line h0.1 (by decide) h, matching_cons h, unfinished_cons h]
    dsimp only
    rw [ih fuel h0.2.2 (by omega)]

/-- The rest of the buffer is kept if there was a newline before it. -/
theorem grep_rest_eq (buf : List Byte) :
    grep_rest buf (unfinished buf) = if NEWLINE ∈ buf then unfinished buf else [] := by
  unfold grep_rest
  by_cases h : NEWLINE ∈ buf
  · obtain ⟨line, rest, rfl, hline⟩ := List.eq_append_cons_of_mem h
    have hle := (unfinished_suffix rest).length_le
    rw [if_pos h, unfinished_cons hline, if_neg (by rw [List.length_append, List.length_cons]; omega)]
  · rw [if_neg h, unfinished_of_not_mem h, if_pos rfl]

/-- One round, on a buffer that holds a part of a line. -/
theorem grep_cons (pattern buf chunk : List Byte) (chunks : List (List Byte)) (h0 : 0 ∉ buf ++ chunk)
    (hbuf : NEWLINE ∉ buf) :
    grep pattern buf (chunk :: chunks) =
      if NEWLINE ∈ chunk then
        matching pattern (buf ++ chunk) ++ grep pattern (unfinished (buf ++ chunk)) chunks
      else grep pattern [] chunks := by
  have hmem : NEWLINE ∈ buf ++ chunk ↔ NEWLINE ∈ chunk := by
    rw [List.mem_append]
    exact or_iff_right hbuf
  rw [grep, grep_lines_eq pattern _ h0 le_rfl]
  dsimp only
  rw [grep_rest_eq]
  by_cases h : NEWLINE ∈ chunk
  · rw [if_pos h, if_pos (hmem.mpr h)]
  · rw [if_neg h, if_neg (mt hmem.mp h), matching_of_not_mem (mt hmem.mp h), List.nil_append]

/-! ## Chunks -/

/-- No newline is read after a chunk without one. -/
def Whole (chunks : List (List Byte)) : Prop := chunks.Pairwise fun c d => NEWLINE ∈ d → NEWLINE ∈ c

theorem grep_of_whole (pattern : List Byte) (h : Whole chunks) {buf : List Byte}
    (h0 : 0 ∉ buf ++ chunks.flatten) (hbuf : NEWLINE ∉ buf) :
    grep pattern buf chunks = matching pattern (buf ++ chunks.flatten) := by
  induction chunks generalizing buf with
  | nil =>
    rw [List.flatten_nil, List.append_nil, matching_of_not_mem hbuf]
    rfl
  | cons chunk chunks ih =>
    obtain ⟨hfirst, hrest⟩ := List.pairwise_cons.mp h
    rw [List.flatten_cons, ← List.append_assoc] at h0 ⊢
    have h0' : 0 ∉ buf ++ chunk := fun hm => h0 (List.mem_append_left _ hm)
    rw [grep_cons pattern buf chunk chunks h0' hbuf]
    split_ifs with hchunk
    · have h0rest : 0 ∉ unfinished (buf ++ chunk) ++ chunks.flatten := by
        rw [List.mem_append, not_or] at h0 ⊢
        exact ⟨fun hm => h0.1 ((unfinished_suffix _).subset hm), h0.2⟩
      rw [matching_append pattern (buf ++ chunk) chunks.flatten, ih hrest h0rest (newline_not_mem_unfinished _)]
    · -- nothing is written any more, and nothing has to be
      have hnone : NEWLINE ∉ chunks.flatten := by
        intro hm
        obtain ⟨d, hd, hmem⟩ := List.mem_flatten.mp hm
        exact hchunk (hfirst d hd hmem)
      have hall : NEWLINE ∉ buf ++ chunk ++ chunks.flatten := by
        rw [List.mem_append, List.mem_append]
        exact not_or.mpr ⟨not_or.mpr ⟨hbuf, hchunk⟩, hnone⟩
      rw [ih hrest (show 0 ∉ [] ++ chunks.flatten from fun hm => h0 (List.mem_append_right _ hm)) List.not_mem_nil,
        List.nil_append, matching_of_not_mem hnone, matching_of_not_mem hall]

/-! ## The pattern that matches everything -/

theorem match_nil (text : List Byte) : «match» [] text = true := by
  cases text <;> rfl

/-- The start of a line counts if the line is finished. -/
theorem length_matching_start {start : List Byte} (h : NEWLINE ∉ start) (hmem : NEWLINE ∈ rest) :
    (matching [] (start ++ rest)).length = start.length + (matching [] rest).length := by
  obtain ⟨line, rest', rfl, hline⟩ := List.eq_append_cons_of_mem hmem
  have hall : NEWLINE ∉ start ++ line := by
    rw [List.mem_append]
    exact not_or.mpr ⟨h, hline⟩
  rw [← List.append_assoc, matching_cons hall, matching_cons hline, if_pos (match_nil _),
    if_pos (match_nil _)]
  simp only [List.length_append, List.length_cons]
  omega

/-- `grep` does not write more than it should, and less if a newline is read
    after a chunk without one. -/
theorem length_grep_nil {buf : List Byte} (h0 : 0 ∉ buf ++ chunks.flatten) (hbuf : NEWLINE ∉ buf)
    (hne : ∀ c ∈ chunks, c ≠ []) :
    (grep [] buf chunks).length ≤ (matching [] (buf ++ chunks.flatten)).length ∧
    (¬ Whole chunks → (grep [] buf chunks).length < (matching [] (buf ++ chunks.flatten)).length) := by
  induction chunks generalizing buf with
  | nil => exact ⟨Nat.zero_le _, fun h => absurd List.Pairwise.nil h⟩
  | cons chunk chunks ih =>
    rw [List.flatten_cons, ← List.append_assoc] at h0 ⊢
    have h0' : 0 ∉ buf ++ chunk := fun hm => h0 (List.mem_append_left _ hm)
    have h0rest : 0 ∉ unfinished (buf ++ chunk) ++ chunks.flatten := by
      rw [List.mem_append, not_or] at h0 ⊢
      exact ⟨fun hm => h0.1 ((unfinished_suffix _).subset hm), h0.2⟩
    rw [grep_cons [] buf chunk chunks h0' hbuf]
    have hne' : ∀ c ∈ chunks, c ≠ [] := fun c hc => hne c (List.mem_cons_of_mem _ hc)
    split_ifs with hchunk
    · obtain ⟨hle, hlt⟩ := ih h0rest (newline_not_mem_unfinished _) hne'
      rw [matching_append [] (buf ++ chunk) chunks.flatten, List.length_append, List.length_append]
      refine ⟨by omega, fun hwhole => ?_⟩
      have hrest : ¬ Whole chunks := fun h => hwhole (List.pairwise_cons.mpr ⟨fun _ _ _ => hchunk, h⟩)
      exact Nat.add_lt_add_left (hlt hrest) _
    · obtain ⟨hle, hlt⟩ := ih (show 0 ∉ [] ++ chunks.flatten from fun hm => h0 (List.mem_append_right _ hm)) List.not_mem_nil hne'
      rw [List.nil_append] at hle hlt
      have hstart : NEWLINE ∉ buf ++ chunk := by
        rw [List.mem_append]
        exact not_or.mpr ⟨hbuf, hchunk⟩
      have hpos : 0 < (buf ++ chunk).length := by
        have := List.length_pos_iff.mpr (hne chunk List.mem_cons_self)
        rw [List.length_append]
        omega
      by_cases hmem : NEWLINE ∈ chunks.flatten
      · -- the line that `buf ++ chunk` belongs to is finished later
        rw [length_matching_start hstart hmem]
        exact ⟨by omega, fun _ => by omega⟩
      · have hwhole : Whole (chunk :: chunks) ↔ Whole chunks := by
          refine ⟨fun h => (List.pairwise_cons.mp h).2, fun h => List.pairwise_cons.mpr ⟨fun d hd hm => ?_, h⟩⟩
          exact absurd (List.mem_flatten_of_mem hd hm) hmem
        have hnone : matching [] chunks.flatten = [] := matching_of_not_mem hmem
        rw [hnone] at hle hlt
        refine ⟨le_trans hle (Nat.zero_le _), fun h => ?_⟩
        exact absurd (hlt (mt hwhole.mpr h)) (Nat.not_lt_zero _)

theorem Delivers.ne_nil {buf : List Byte} (h : Delivers buf chunks) : ∀ c ∈ chunks, c ≠ [] := by
  induction chunks generalizing buf with
  | nil => exact fun c hc => absurd hc List.not_mem_nil
  | cons chunk chunks ih =>
    intro c hc
    rcases List.mem_cons.mp hc with rfl | hc
    · exact h.1
    · exact ih h.2.2 c hc

/-- For an input of any lines without NUL bytes, however `read` delivers it,
    `grep` writes the lines that match, whatever the pattern, exactly if no
    newline arrives after a chunk without one. -/
theorem grep_writes_matching_iff (chunks : List (List Byte)) (hread : Delivers [] chunks)
    (h0 : 0 ∉ chunks.flatten) :
    (∀ pattern, grep pattern [] chunks = matching pattern chunks.flatten) ↔ Whole chunks := by
  constructor
  · intro h
    by_contra hwhole
    have hlt := (length_grep_nil (show 0 ∉ [] ++ chunks.flatten by rwa [List.nil_append]) List.not_mem_nil hread.ne_nil).2 hwhole
    rw [List.nil_append, h []] at hlt
    exact lt_irrefl _ hlt
  · intro h pattern
    rw [grep_of_whole pattern h (by rwa [List.nil_append]) List.not_mem_nil, List.nil_append]

/-- Two chunks, with the start of a line at the end of the first; the pattern
    is c. -/
theorem grep_writes_matching_two_chunks :
    grep [0x63] [] [[0x61, NEWLINE, 0x62], [0x63, NEWLINE]] = [0x62, 0x63, NEWLINE] := by
  have hread : Delivers [] [[0x61, NEWLINE, 0x62], [0x63, NEWLINE]] := by
    simp [Delivers]
    decide
  have hall := (grep_writes_matching_iff [[0x61, NEWLINE, 0x62], [0x63, NEWLINE]] hread (by decide)).mpr
    (List.pairwise_pair.mpr fun _ => by decide)
  exact (hall [0x63]).trans (by decide)

/-- A line in two chunks: its start is lost. -/
theorem grep_loses_start :
    Delivers [] [[0x61], [0x62, NEWLINE]] ∧
    grep [] [] [[0x61], [0x62, NEWLINE]] = [0x62, NEWLINE] ∧
    matching [] [0x61, 0x62, NEWLINE] = [0x61, 0x62, NEWLINE] := by
  refine ⟨?_, by decide, by decide⟩
  simp [Delivers]
  decide

end Xv6.Grep
