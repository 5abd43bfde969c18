import Xv6.Kern.Console
import Xv6.Framework.Simulation

/-! # The line discipline of the console

    `consoleintr` and `consoleread` on the `input` of the source, three free
    running indices over a ring, used one character at a time under
    `cons.lock`. `consoleread` counts down what is left of `target`, and
    leaves its loop by a `break`.

    The reference is a `Tty`. Its `Line` is what is being edited, and a queue
    of what has been committed; a `Read` knows how much it may return, what it
    has got, and whether it has met a ^D. When a read is over is said of what
    it has got. The two systems run in step (`inStep_tty`): the ring shows the
    line (`Shows`), and each call follows its read (`Follows`).
-/

namespace Xv6.Kern

open LTS Function

/-! ## The source -/

/-- A call of `consoleread` under way. -/
structure Reading where
  target : Nat
  /-- What is left of `target`. -/
  n : Nat
  dst : List Byte
  /-- The loop has been left by a `break`. -/
  stop : Bool

/-- The console and the processes that read from it. -/
structure Console (P : Type) where
  input : Input
  reading : P → Option Reading
  /-- History: the characters copied to readers. -/
  delivered : List (P × Byte)
  /-- History: the calls that have returned, with the value and what they have
      stored at `dst`. -/
  returned : List (P × Int × List Byte)

inductive ConsoleLabel (P : Type) where
  /-- `consoleintr` gets a character. -/
  | intr (c : Byte)
  /-- `consoleread` is called. -/
  | call (p : P) (n : Int)
  /-- One round of the loop of `consoleread`, `input.r == input.w` having been
      found false. -/
  | fetch (p : P)
  /-- `consoleread` returns. -/
  | ret (p : P)

variable {P : Type} [DecidableEq P]

/-- The rest of a round, with the character `c`. -/
def Reading.take (rd : Reading) (c : Byte) : Reading :=
  { rd with n := rd.n - 1, dst := rd.dst ++ [c], stop := decide (c = code '\n') }

/-- One round of the loop of `consoleread`. -/
def Console.round (s : Console P) (p : P) (rd : Reading) : Console P :=
  match s.input.fetch (decide (rd.n < rd.target)) with
  | (inp, none) =>
    { s with input := inp, reading := update s.reading p (some { rd with stop := true }) }
  | (inp, some c) =>
    { s with
      input := inp
      reading := update s.reading p (some (rd.take c))
      delivered := s.delivered ++ [(p, c)] }

def Console.next (s : Console P) : ConsoleLabel P → Option (Console P)
  | .intr c => some { s with input := (s.input.intr c).1 }
  | .call p n =>
    match s.reading p with
    | none =>
      some { s with reading := update s.reading p (some ⟨n.toNat, n.toNat, [], false⟩) }
    | some _ => none
  | .fetch p =>
    match s.reading p with
    | none => none
    | some rd =>
      if rd.stop = false ∧ 0 < rd.n ∧ s.input.r ≠ s.input.w then some (s.round p rd) else none
  | .ret p =>
    match s.reading p with
    | none => none
    | some rd =>
      if rd.stop = true ∨ rd.n = 0 then
        -- return target - n;
        some { s with
          reading := update s.reading p none
          returned := s.returned ++ [(p, (rd.target : Int) - rd.n, rd.dst)] }
      else none

/-- Nobody has called yet; the three indices are anywhere, and equal. -/
def Console.start (buf : Nat → Byte) (i : BitVec 32) : Console P :=
  ⟨⟨buf, i, i, i⟩, fun _ => none, [], []⟩

/-- Any number of processes, and the interrupts. -/
def consoleSystem : System (Console P) (ConsoleLabel P) where
  init := fun s => ∃ buf i, s = Console.start buf i
  next := Console.next

/-! ## The reference -/

/-- What is being edited, and what has been committed and not been read. -/
structure Line where
  edit : List Byte
  queue : List Byte
  /-- History: all that has been committed. -/
  committed : List Byte

namespace Line

/-- The edit line ends. -/
def commit (l : Line) : Line := ⟨[], l.queue ++ l.edit, l.committed ++ l.edit⟩

/-- A character that is neither lost nor a command enters the edit line. -/
def enter (l : Line) (c : Byte) : Line :=
  let l := { l with edit := l.edit ++ [c] }
  if c = code '\n' ∨ c = ctrl 'D' ∨ l.queue.length + l.edit.length = INPUT_BUF then l.commit else l

def intr (l : Line) (c : Byte) : Line :=
  if c = ctrl 'P' ∨ c = 0 then l
  else if c = ctrl 'U' then { l with edit := [] }
  else if c = ctrl 'H' ∨ c = 0x7f then { l with edit := l.edit.dropLast }
  else if l.queue.length + l.edit.length = INPUT_BUF then l
  else l.enter (if c = code '\r' then code '\n' else c)

end Line

/-- A read under way. -/
structure Read where
  /-- It returns at most so many characters. -/
  limit : Nat
  got : List Byte
  /-- It has met a ^D. -/
  eof : Bool

/-- A read ends with a newline, with a ^D, or when it has got all it may. -/
def Read.Over (r : Read) : Prop :=
  r.eof = true ∨ r.got.getLast? = some (code '\n') ∨ r.got.length = r.limit

instance (r : Read) : Decidable r.Over := inferInstanceAs (Decidable (_ ∨ _ ∨ _))

structure Tty (P : Type) where
  line : Line
  reads : P → Option Read
  /-- History: who has got which character. -/
  delivered : List (P × Byte)
  /-- History: the reads that are over, with their result and what they have
      got. -/
  returned : List (P × Int × List Byte)

/-- A read meets a ^D. It is kept for the next read if this one returns
    something. -/
def Tty.meet (t : Tty P) (p : P) (r : Read) (queue : List Byte) : Tty P :=
  { t with
    line := if r.got = [] then { t.line with queue := queue } else t.line
    reads := update t.reads p (some { r with eof := true }) }

/-- A read gets the character `c`. -/
def Tty.deliver (t : Tty P) (p : P) (r : Read) (c : Byte) (queue : List Byte) : Tty P :=
  { t with
    line := { t.line with queue := queue }
    reads := update t.reads p (some { r with got := r.got ++ [c] })
    delivered := t.delivered ++ [(p, c)] }

def Tty.next (t : Tty P) : ConsoleLabel P → Option (Tty P)
  | .intr c => some { t with line := t.line.intr c }
  | .call p n =>
    match t.reads p with
    | none => some { t with reads := update t.reads p (some ⟨n.toNat, [], false⟩) }
    | some _ => none
  | .fetch p =>
    match t.reads p, t.line.queue with
    | some r, c :: queue =>
      if r.Over then none
      else if c = ctrl 'D' then some (t.meet p r queue)
      else some (t.deliver p r c queue)
    | _, _ => none
  | .ret p =>
    match t.reads p with
    | none => none
    | some r =>
      if r.Over then
        some { t with
          reads := update t.reads p none
          returned := t.returned ++ [(p, (r.got.length : Int), r.got)] }
      else none

def Tty.start : Tty P := ⟨⟨[], [], []⟩, fun _ => none, [], []⟩

def ttySystem : System (Tty P) (ConsoleLabel P) where
  init := fun t => t = Tty.start
  next := Tty.next

/-! ## Cells of the ring -/

/-- The cells from the index `r` on hold the text. -/
def Cells (buf : Nat → Byte) (r : BitVec 32) (text : List Byte) : Prop :=
  ∀ j b, text[j]? = some b → buf ((r.toNat + j) % INPUT_BUF) = b

variable {buf : Nat → Byte} {r e : BitVec 32} {text : List Byte} {b c : Byte}

theorem Cells.push (h : Cells buf r text) (hlen : text.length < INPUT_BUF)
    (he : (e - r).toNat = text.length) (c : Byte) :
    Cells (update buf (e.toNat % INPUT_BUF) c) r (text ++ [c]) := by
  have hidx : e.toNat % INPUT_BUF = (r.toNat + text.length) % INPUT_BUF := by
    rw [BitVec.toNat_sub] at he
    simp only [INPUT_BUF]
    omega
  intro j b hj
  rw [List.getElem?_append] at hj
  rw [hidx]
  split_ifs at hj with hlt
  · -- an old cell
    rw [update_of_ne (by simp only [INPUT_BUF] at *; omega)]
    exact h j b hj
  · have hj' : j = text.length := by
      have := (List.getElem?_eq_some_iff.mp hj).1
      simp only [List.length_singleton] at this
      omega
    subst hj'
    rw [Nat.sub_self] at hj
    rw [update_self]
    exact Option.some.inj hj

theorem Cells.take_prefix {text' : List Byte} (h : Cells buf r (text ++ text')) : Cells buf r text := by
  intro j b hj
  refine h j b ?_
  rw [List.getElem?_append_left (List.getElem?_eq_some_iff.mp hj).1]
  exact hj

theorem Cells.pop (h : Cells buf r (c :: text)) : Cells buf (r + 1) text := by
  intro j b hj
  have hcell := h (j + 1) b (by rwa [List.getElem?_cons_succ])
  have hidx : ((r + 1).toNat + j) % INPUT_BUF = (r.toNat + (j + 1)) % INPUT_BUF := by
    rw [BitVec.toNat_add]
    simp only [BitVec.ofNat_eq_ofNat, BitVec.toNat_ofNat, INPUT_BUF]
    omega
  rw [hidx]
  exact hcell

theorem Cells.head (h : Cells buf r (c :: text)) : buf (r.toNat % INPUT_BUF) = c := h 0 c rfl

/-! ## The two devices agree -/

theorem toNat_sub_eq_zero {x y : BitVec 32} : (x - y).toNat = 0 ↔ x = y := by
  rw [BitVec.toNat_sub, ← BitVec.toNat_inj]
  omega

/-- The ring holds the queue and, after it, the edit line. -/
structure Shows (inp : Input) (l : Line) : Prop where
  queue : (inp.w - inp.r).toNat = l.queue.length
  all : (inp.e - inp.r).toNat = (l.queue ++ l.edit).length
  room : (l.queue ++ l.edit).length ≤ INPUT_BUF
  cells : Cells inp.buf inp.r (l.queue ++ l.edit)
  plain : code '\n' ∉ l.edit

variable {inp : Input} {l : Line}

namespace Shows

section

variable (h : Shows inp l)
include h

theorem edit : (inp.e - inp.w).toNat = l.edit.length := by
  have hq := h.queue
  have ha := h.all
  have hr := h.room
  rw [BitVec.toNat_sub] at hq ha ⊢
  simp only [List.length_append, INPUT_BUF] at *
  omega

theorem edit_eq_nil_iff : inp.e = inp.w ↔ l.edit = [] := by
  rw [← List.length_eq_zero_iff, ← h.edit, toNat_sub_eq_zero]

theorem queue_eq_nil_iff : inp.r = inp.w ↔ l.queue = [] := by
  rw [← List.length_eq_zero_iff, ← h.queue, toNat_sub_eq_zero, eq_comm]

/-- The last character of the edit line. -/
theorem last {text : List Byte} {c : Byte} (hedit : l.edit = text ++ [c]) :
    inp.buf ((inp.e - 1).toNat % INPUT_BUF) = c := by
  have ha := h.all
  have hr := h.room
  have hcell := h.cells (l.queue ++ text).length c (by
    rw [hedit, ← List.append_assoc, List.getElem?_append_right le_rfl, Nat.sub_self]
    rfl)
  rw [hedit] at ha hr
  have hidx : (inp.e - 1).toNat % INPUT_BUF = (inp.r.toNat + (l.queue ++ text).length) % INPUT_BUF := by
    rw [BitVec.toNat_sub] at ha ⊢
    simp only [List.length_append, List.length_singleton, BitVec.ofNat_eq_ofNat, BitVec.toNat_ofNat,
      INPUT_BUF] at *
    omega
  rw [hidx]
  exact hcell

/-- Taking back the last character of the edit line. -/
theorem erase (hne : inp.e ≠ inp.w) :
    Shows { inp with e := inp.e - 1 } { l with edit := l.edit.dropLast } := by
  have hedit : l.edit ≠ [] := fun he => hne (h.edit_eq_nil_iff.mpr he)
  have hlen : 0 < l.edit.length := List.length_pos_iff.mpr hedit
  have ha := h.all
  have hr := h.room
  refine ⟨h.queue, ?_, ?_, ?_, fun hmem => h.plain (List.dropLast_subset _ hmem)⟩
  · show (inp.e - 1 - inp.r).toNat = _
    rw [BitVec.toNat_sub] at ha
    rw [BitVec.toNat_sub, BitVec.toNat_sub]
    simp only [List.length_append, List.length_dropLast, BitVec.ofNat_eq_ofNat, BitVec.toNat_ofNat,
      INPUT_BUF] at *
    omega
  · simp only [List.length_append, List.length_dropLast] at *
    omega
  · have hcells := h.cells
    rw [← List.dropLast_append_getLast hedit, ← List.append_assoc] at hcells
    exact hcells.take_prefix

/-- Killing the line takes back all of it. -/
theorem kill_line (n : Nat) (hn : n = l.edit.length) :
    Shows (Input.kill_line n inp) { l with edit := [] } := by
  induction n generalizing inp l with
  | zero =>
    have hnil : l.edit = [] := List.length_eq_zero_iff.mp hn.symm
    have heq : { l with edit := [] } = l := by rw [← hnil]
    rw [heq]
    exact h
  | succ n ih =>
    have hne : l.edit ≠ [] := by
      intro hnil
      rw [hnil] at hn
      cases hn
    have hlast := h.last (List.dropLast_append_getLast hne).symm
    have hplain : l.edit.getLast hne ≠ code '\n' := fun heq => h.plain (heq ▸ List.getLast_mem hne)
    unfold Input.kill_line
    rw [if_pos ⟨fun heq => hne (h.edit_eq_nil_iff.mp heq), by rwa [hlast]⟩]
    exact ih (l := { l with edit := l.edit.dropLast }) (h.erase fun heq => hne (h.edit_eq_nil_iff.mp heq))
      (by
        rw [List.length_dropLast]
        omega)

/-- A character is stored at the edit index. -/
theorem stored (hlt : (l.queue ++ l.edit).length < INPUT_BUF) :
    (inp.e + 1 - inp.r).toNat = (l.queue ++ l.edit).length + 1 ∧
    (inp.e + 1 = inp.r + BitVec.ofNat 32 INPUT_BUF ↔ (l.queue ++ l.edit).length + 1 = INPUT_BUF) := by
  have ha := h.all
  simp only [INPUT_BUF] at hlt ⊢
  rw [BitVec.toNat_sub] at ha
  constructor
  · rw [BitVec.toNat_sub, BitVec.toNat_add]
    simp only [BitVec.ofNat_eq_ofNat, BitVec.toNat_ofNat]
    omega
  · rw [← BitVec.toNat_inj, BitVec.toNat_add, BitVec.toNat_add]
    simp only [BitVec.ofNat_eq_ofNat, BitVec.toNat_ofNat]
    omega

/-- `consoleintr` for a character `c` that enters the edit line. -/
theorem enter (hlt : (l.queue ++ l.edit).length < INPUT_BUF) (c : Byte) :
    let inp' : Input := { inp with
      buf := update inp.buf (inp.e.toNat % INPUT_BUF) c
      e := inp.e + 1 }
    Shows (if c = code '\n' ∨ c = ctrl 'D' ∨ inp'.e = inp'.r + BitVec.ofNat 32 INPUT_BUF then
      { inp' with w := inp'.e } else inp') (l.enter c) := by
  intro inp'
  obtain ⟨hdist, hfull⟩ := h.stored hlt
  have hcells := h.cells.push hlt h.all c
  rw [List.append_assoc] at hcells
  have hlen : (l.queue ++ (l.edit ++ [c])).length = (l.queue ++ l.edit).length + 1 := by
    rw [← List.append_assoc, List.length_append, List.length_singleton]
  have hiff : inp'.e = inp'.r + BitVec.ofNat 32 INPUT_BUF ↔
      l.queue.length + (l.edit ++ [c]).length = INPUT_BUF := by
    rw [← List.length_append, hlen]
    exact hfull
  unfold Line.enter
  dsimp only
  by_cases hend : c = code '\n' ∨ c = ctrl 'D' ∨ l.queue.length + (l.edit ++ [c]).length = INPUT_BUF
  · -- the whole line moves to the queue
    rw [if_pos hend, if_pos (hend.imp_right (Or.imp_right hiff.mpr))]
    refine ⟨?_, ?_, ?_, ?_, List.not_mem_nil⟩
    · exact hdist.trans hlen.symm
    · show _ = ((l.queue ++ (l.edit ++ [c])) ++ []).length
      rw [List.append_nil]
      exact hdist.trans hlen.symm
    · show ((l.queue ++ (l.edit ++ [c])) ++ []).length ≤ INPUT_BUF
      rw [List.append_nil, hlen]
      exact hlt
    · show Cells _ _ ((l.queue ++ (l.edit ++ [c])) ++ [])
      rwa [List.append_nil]
  · rw [if_neg hend, if_neg (mt (Or.imp_right (Or.imp_right hiff.mp)) hend)]
    have hplain : code '\n' ∉ l.edit ++ [c] := by
      rw [List.mem_append, List.mem_singleton, not_or]
      exact ⟨h.plain, fun heq => hend (.inl heq.symm)⟩
    exact ⟨h.queue, hdist.trans hlen.symm, hlen.trans_le hlt, hcells, hplain⟩

theorem intr (c : Byte) : Shows (inp.intr c).1 (l.intr c) := by
  unfold Input.intr Line.intr
  by_cases hP : c = ctrl 'P'
  · rw [if_pos hP, if_pos (.inl hP)]
    exact h
  by_cases h0 : c = 0
  · subst h0
    rw [if_neg (by decide), if_neg (by decide), if_neg (by decide), if_neg (by simp), if_pos (.inr rfl)]
    exact h
  rw [if_neg hP, if_neg (not_or.mpr ⟨hP, h0⟩)]
  by_cases hU : c = ctrl 'U'
  · rw [if_pos hU, if_pos hU]
    exact h.kill_line _ h.edit
  rw [if_neg hU, if_neg hU]
  by_cases hH : c = ctrl 'H' ∨ c = 0x7f
  · rw [if_pos hH, if_pos hH]
    by_cases hne : inp.e = inp.w
    · have hnil := h.edit_eq_nil_iff.mp hne
      rw [if_neg (not_not.mpr hne), hnil]
      show Shows inp { l with edit := [] }
      rw [← hnil]
      exact h
    · rw [if_pos hne]
      exact h.erase hne
  rw [if_neg hH, if_neg hH, h.all]
  by_cases hfull : (l.queue ++ l.edit).length = INPUT_BUF
  · rw [if_neg (by omega), if_pos (by rwa [List.length_append] at hfull)]
    exact h
  · have hlt : (l.queue ++ l.edit).length < INPUT_BUF := lt_of_le_of_ne h.room hfull
    rw [List.length_append] at hfull
    rw [if_pos ⟨h0, hlt⟩, if_neg hfull]
    generalize (if c = code '\r' then code '\n' else c) = c'
    have henter := h.enter hlt c'
    dsimp only at henter ⊢
    rwa [apply_ite Prod.fst]

theorem ready : inp.r ≠ inp.w ↔ l.queue ≠ [] := by
  rw [Ne, h.queue_eq_nil_iff]

/-- Taking the first character of the queue. -/
theorem pop {queue : List Byte} (hqueue : l.queue = c :: queue) :
    inp.buf (inp.r.toNat % INPUT_BUF) = c ∧
    Shows { inp with r := inp.r + 1 } { l with queue := queue } := by
  have hcells := h.cells
  have hq := h.queue
  have ha := h.all
  have hr := h.room
  rw [hqueue] at hcells hq ha hr
  refine ⟨hcells.head, ?_, ?_, ?_, hcells.pop, h.plain⟩
  · show (inp.w - (inp.r + 1)).toNat = queue.length
    rw [BitVec.toNat_sub] at hq ⊢
    rw [BitVec.toNat_add]
    simp only [List.length_cons, List.length_append, BitVec.ofNat_eq_ofNat, BitVec.toNat_ofNat,
      INPUT_BUF] at *
    omega
  · show (inp.e - (inp.r + 1)).toNat = (queue ++ l.edit).length
    rw [BitVec.toNat_sub] at ha ⊢
    rw [BitVec.toNat_add]
    simp only [List.length_cons, List.cons_append, BitVec.ofNat_eq_ofNat, BitVec.toNat_ofNat,
      INPUT_BUF] at *
    omega
  · show (queue ++ l.edit).length ≤ INPUT_BUF
    simp only [List.cons_append, List.length_cons] at hr
    omega

end

theorem start (buf : Nat → Byte) (i : BitVec 32) : Shows ⟨buf, i, i, i⟩ ⟨[], [], []⟩ := by
  have hzero : (i - i).toNat = 0 := by
    rw [BitVec.sub_self]
    rfl
  exact ⟨hzero, hzero, Nat.zero_le _, fun j b hj => by simp at hj, List.not_mem_nil⟩

end Shows

/-! ## The two systems run in step -/

/-- The call is where the read is. -/
structure Follows (rd : Reading) (r : Read) : Prop where
  target : rd.target = r.limit
  dst : rd.dst = r.got
  left : rd.n + r.got.length = r.limit
  stop : rd.stop = true ↔ r.eof = true ∨ r.got.getLast? = some (code '\n')

namespace Follows

variable {rd : Reading} {r : Read}

theorem over_iff (h : Follows rd r) : rd.stop = true ∨ rd.n = 0 ↔ r.Over := by
  have hleft := h.left
  unfold Read.Over
  rw [h.stop, or_assoc]
  refine or_congr_right (or_congr_right ?_)
  omega

/-- The call has returned something when the read has. -/
theorem some_read (h : Follows rd r) : decide (rd.n < rd.target) = !decide (r.got = []) := by
  have hleft := h.left
  have hpos := List.length_eq_zero_iff (l := r.got)
  rw [h.target, Bool.eq_iff_iff, Bool.not_eq_true', decide_eq_true_iff, decide_eq_false_iff_not,
    ← hpos]
  omega

theorem meet (h : Follows rd r) : Follows { rd with stop := true } { r with eof := true } :=
  ⟨h.target, h.dst, h.left, iff_of_true rfl (Or.inl rfl)⟩

theorem take (h : Follows rd r) (hover : ¬ r.Over) (c : Byte) :
    Follows (rd.take c) { r with got := r.got ++ [c] } := by
  have hleft := h.left
  have hlen : r.got.length ≠ r.limit := fun heq => hover (Or.inr (Or.inr heq))
  have heof : r.eof = false := by
    rw [← Bool.not_eq_true]
    exact fun heq => hover (Or.inl heq)
  refine ⟨h.target, by simp only [Reading.take, h.dst], ?_, ?_⟩
  · simp only [Reading.take, List.length_append, List.length_singleton]
    omega
  · simp [Reading.take, heof]

end Follows

/-- The ring shows the line, the calls follow the reads, and both systems have
    the same history. -/
structure Alike (s : Console P) (t : Tty P) : Prop where
  ring : Shows s.input t.line
  reads : ∀ p, Option.Rel Follows (s.reading p) (t.reads p)
  delivered : s.delivered = t.delivered
  returned : s.returned = t.returned

theorem rel_update {f : P → Option Reading} {g : P → Option Read} {x : Option Reading}
    {y : Option Read} (h : ∀ p, Option.Rel Follows (f p) (g p)) (hxy : Option.Rel Follows x y)
    (q p : P) : Option.Rel Follows (update f q x p) (update g q y p) := by
  by_cases hp : p = q
  · subst hp
    rw [update_self, update_self]
    exact hxy
  · rw [update_of_ne hp, update_of_ne hp]
    exact h p

/-- One round of the loop, against the head of the queue. -/
theorem Alike.round {s : Console P} {t : Tty P} {p : P} {rd : Reading} {r : Read} {c : Byte}
    {queue : List Byte} (h : Alike s t) (hrd : Follows rd r) (hover : ¬ r.Over)
    (hqueue : t.line.queue = c :: queue) :
    Alike (s.round p rd) (if c = ctrl 'D' then t.meet p r queue else t.deliver p r c queue) := by
  obtain ⟨hhead, hpop⟩ := h.ring.pop hqueue
  unfold Console.round Input.fetch
  rw [hhead, hrd.some_read]
  by_cases hD : c = ctrl 'D'
  · rw [if_pos hD, if_pos hD]
    refine ⟨?_, rel_update h.reads (.some hrd.meet) p, h.delivered, h.returned⟩
    -- the index goes back if something has been returned
    by_cases hgot : r.got = []
    · simpa [Tty.meet, hgot] using hpop
    · simpa [Tty.meet, hgot] using h.ring
  · rw [if_neg hD, if_neg hD]
    refine ⟨hpop, rel_update h.reads (.some (hrd.take hover c)) p, ?_, h.returned⟩
    simp only [Tty.deliver, h.delivered]

theorem inStep_tty : InStep (consoleSystem (P := P)) ttySystem Alike := by
  intro s t l h
  show Option.Rel _ (s.next l) (t.next l)
  cases l with
  | intr c => exact .some ⟨h.ring.intr c, h.reads, h.delivered, h.returned⟩
  | call p n =>
    have hp := h.reads p
    simp only [Console.next, Tty.next]
    generalize s.reading p = x at hp
    generalize t.reads p = y at hp
    cases hp with
    | none =>
      have hnew : Follows ⟨n.toNat, n.toNat, [], false⟩ ⟨n.toNat, [], false⟩ :=
        ⟨rfl, rfl, Nat.add_zero _, by simp⟩
      exact .some ⟨h.ring, rel_update h.reads (.some hnew) p, h.delivered, h.returned⟩
    | some _ => exact .none
  | fetch p =>
    have hp := h.reads p
    simp only [Console.next, Tty.next, h.ring.ready]
    generalize s.reading p = x at hp
    generalize t.reads p = y at hp
    cases hp with
    | none => exact .none
    | @some rd r hrd =>
      cases hqueue : t.line.queue with
      | nil =>
        dsimp only
        rw [if_neg fun hrun => hrun.2.2 rfl]
        exact .none
      | cons c queue =>
        dsimp only
        have hgo : (rd.stop = false ∧ 0 < rd.n ∧ c :: queue ≠ []) ↔ ¬ r.Over := by
          rw [← hrd.over_iff, not_or, Bool.not_eq_true]
          simp [Nat.pos_iff_ne_zero]
        by_cases hover : r.Over
        · rw [if_pos hover, if_neg (mt hgo.mp (not_not.mpr hover))]
          exact .none
        · rw [if_neg hover, if_pos (hgo.mpr hover), ← apply_ite some]
          exact .some (h.round hrd hover hqueue)
  | ret p =>
    have hp := h.reads p
    simp only [Console.next, Tty.next]
    generalize s.reading p = x at hp
    generalize t.reads p = y at hp
    cases hp with
    | none => exact .none
    | @some rd r hrd =>
      simp only [hrd.over_iff]
      split_ifs with hover
      · have hret : (rd.target : Int) - rd.n = r.got.length := by
          have hleft := hrd.left
          rw [hrd.target]
          omega
        refine .some ⟨h.ring, rel_update h.reads .none p, h.delivered, ?_⟩
        rw [h.returned, hret, hrd.dst]
      · exact .none

/-! ## What the reference delivers -/

/-- Everything committed but ^D. -/
def visible (text : List Byte) : List Byte := text.filter (· ≠ ctrl 'D')

theorem visible_append (a b : List Byte) : visible (a ++ b) = visible a ++ visible b :=
  List.filter_append ..

/-- What process `p` has got. -/
def Tty.gotBy (t : Tty P) (p : P) : List Byte := (t.delivered.filter (·.1 = p)).map Prod.snd

/-- What the reads of process `p` that are over have got. -/
def Tty.returnedTo (t : Tty P) (p : P) : List Byte :=
  ((t.returned.filter (·.1 = p)).map fun r => r.2.2).flatten

/-- A line that goes on after its last newline, or has none. -/
def OneLine (text : List Byte) : Prop := code '\n' ∉ text.dropLast

/-- The committed characters are delivered in order and once each, every reader
    has got what was delivered to it, and no read goes on after a newline. -/
structure InOrder (t : Tty P) : Prop where
  order : t.delivered.map Prod.snd ++ visible t.line.queue = visible t.line.committed
  readers : ∀ p, t.gotBy p = t.returnedTo p ++ (t.reads p).elim [] Read.got
  reading : ∀ p r, t.reads p = some r → OneLine r.got
  results : ∀ r ∈ t.returned, r.2.1 = r.2.2.length ∧ OneLine r.2.2

/-- What an interrupt commits goes to the end of the queue. -/
theorem Line.intr_commits (l : Line) (c : Byte) :
    ∃ x, (l.intr c).queue = l.queue ++ x ∧ (l.intr c).committed = l.committed ++ x := by
  have hnone : ∀ l' : Line, l'.queue = l.queue → l'.committed = l.committed →
      ∃ x, l'.queue = l.queue ++ x ∧ l'.committed = l.committed ++ x := by
    intro l' hq hc
    exact ⟨[], by rw [hq, List.append_nil], by rw [hc, List.append_nil]⟩
  unfold Line.intr Line.enter
  dsimp only
  split_ifs
  all_goals first
    | exact hnone _ rfl rfl
    | exact ⟨_, rfl, rfl⟩

namespace InOrder

variable {t : Tty P} {p : P} {r : Read} {c : Byte} {queue : List Byte}

/-- One read changes; what it has got in all, in this read and before, is what
    was delivered to it. -/
theorem setRead (h : InOrder t) {u : Tty P} {x : Option Read}
    (hreads : u.reads = update t.reads p x) (hothers : ∀ q, q ≠ p →
      u.gotBy q = t.gotBy q ∧ u.returnedTo q = t.returnedTo q)
    (hself : u.gotBy p = u.returnedTo p ++ x.elim [] Read.got)
    (hx : ∀ r, x = some r → OneLine r.got) :
    (∀ q, u.gotBy q = u.returnedTo q ++ (u.reads q).elim [] Read.got) ∧
    ∀ q r, u.reads q = some r → OneLine r.got := by
  rw [hreads]
  constructor
  · intro q
    by_cases hq : q = p
    · subst hq
      rw [update_self]
      exact hself
    · rw [update_of_ne hq, (hothers q hq).1, (hothers q hq).2]
      exact h.readers q
  · intro q r hr
    by_cases hq : q = p
    · subst hq
      rw [update_self] at hr
      exact hx r hr
    · rw [update_of_ne hq] at hr
      exact h.reading q r hr

theorem meet (h : InOrder t) (hr : t.reads p = some r) (hqueue : t.line.queue = ctrl 'D' :: queue) :
    InOrder (t.meet p r queue) := by
  have hself := h.readers p
  rw [hr] at hself
  obtain ⟨hreaders, hreading⟩ := h.setRead (u := t.meet p r queue) rfl
    (fun q _ => ⟨rfl, rfl⟩) hself fun r' hr' => Option.some.inj hr' ▸ h.reading p r hr
  refine ⟨?_, hreaders, hreading, h.results⟩
  have horder := h.order
  unfold Tty.meet
  dsimp only
  split_ifs
  · -- the ^D is gone, and was not visible
    have hskip : visible (ctrl 'D' :: queue) = visible queue := List.filter_cons_of_neg (by simp)
    rw [hqueue, hskip] at horder
    exact horder
  · exact horder

theorem deliver (h : InOrder t) (hr : t.reads p = some r) (hover : ¬ r.Over) (hD : c ≠ ctrl 'D')
    (hqueue : t.line.queue = c :: queue) : InOrder (t.deliver p r c queue) := by
  have hself := h.readers p
  rw [hr] at hself
  have hline : OneLine (r.got ++ [c]) := by
    -- the read goes on, so its last character was no newline
    unfold OneLine
    rw [List.dropLast_concat]
    intro hmem
    have hne := List.ne_nil_of_mem hmem
    rw [← List.dropLast_append_getLast hne, List.mem_append, List.mem_singleton] at hmem
    rcases hmem with hmem | hlast
    · exact h.reading p r hr hmem
    · exact hover (Or.inr (Or.inl (by rw [List.getLast?_eq_some_getLast hne, ← hlast])))
  have hgot : (t.deliver p r c queue).gotBy p = t.gotBy p ++ [c] := by
    simp [Tty.gotBy, Tty.deliver]
  obtain ⟨hreaders, hreading⟩ := h.setRead (u := t.deliver p r c queue) rfl
    (fun q hq => ⟨by simp [Tty.gotBy, Tty.deliver, Ne.symm hq], rfl⟩)
    (by rw [hgot, hself]; exact List.append_assoc _ _ _)
    fun r' hr' => Option.some.inj hr' ▸ hline
  refine ⟨?_, hreaders, hreading, h.results⟩
  have hkeep : visible (c :: queue) = c :: visible queue := List.filter_cons_of_pos (by simp [hD])
  have horder := h.order
  rw [hqueue, hkeep] at horder
  simpa [Tty.deliver] using horder

theorem next {t' : Tty P} {l : ConsoleLabel P} (h : InOrder t) (hnext : t.next l = some t') :
    InOrder t' := by
  cases l with
  | intr c =>
    obtain ⟨x, hq, hc⟩ := t.line.intr_commits c
    cases hnext
    refine ⟨?_, h.readers, h.reading, h.results⟩
    show t.delivered.map Prod.snd ++ visible (t.line.intr c).queue = visible (t.line.intr c).committed
    rw [hq, hc, visible_append, visible_append, ← List.append_assoc, h.order]
  | call p n =>
    simp only [Tty.next] at hnext
    have hself := h.readers p
    cases hp : t.reads p with
    | some r =>
      rw [hp] at hnext
      cases hnext
    | none =>
      rw [hp] at hnext hself
      cases hnext
      obtain ⟨hreaders, hreading⟩ := h.setRead (x := some ⟨n.toNat, [], false⟩) (u := { t with
        reads := update t.reads p (some ⟨n.toNat, [], false⟩) }) rfl
        (fun q _ => ⟨rfl, rfl⟩) hself fun r hr => Option.some.inj hr ▸ List.not_mem_nil
      exact ⟨h.order, hreaders, hreading, h.results⟩
  | fetch p =>
    simp only [Tty.next] at hnext
    cases hp : t.reads p with
    | none =>
      rw [hp] at hnext
      cases hnext
    | some r =>
      cases hqueue : t.line.queue with
      | nil =>
        rw [hp, hqueue] at hnext
        cases hnext
      | cons c queue =>
        rw [hp, hqueue] at hnext
        dsimp only at hnext
        split_ifs at hnext with hover hD
        · cases hnext
          exact h.meet hp (hD ▸ hqueue)
        · cases hnext
          exact h.deliver hp hover hD hqueue
  | ret p =>
    simp only [Tty.next] at hnext
    have hself := h.readers p
    cases hp : t.reads p with
    | none =>
      rw [hp] at hnext
      cases hnext
    | some r =>
      rw [hp] at hnext hself
      dsimp only at hnext
      split_ifs at hnext
      cases hnext
      obtain ⟨hreaders, hreading⟩ := h.setRead (p := p) (x := none) (u := { t with
        reads := update t.reads p none
        returned := t.returned ++ [(p, (r.got.length : Int), r.got)] }) rfl
        (fun q hq => ⟨rfl, by simp [Tty.returnedTo, Ne.symm hq]⟩)
        (by simpa [Tty.returnedTo, Tty.gotBy] using hself) nofun
      refine ⟨h.order, hreaders, hreading, fun x hx => ?_⟩
      rcases List.mem_append.mp hx with hold | hnew
      · exact h.results x hold
      · rw [List.mem_singleton.mp hnew]
        exact ⟨rfl, h.reading p r hp⟩

theorem start : InOrder (Tty.start : Tty P) :=
  ⟨rfl, fun _ => rfl, nofun, fun _ hr => (List.not_mem_nil hr).elim⟩

end InOrder

/-- Every run of `consoleintr` and `consoleread` is one of the reference, and
    the other way round, with the same characters delivered and the same results
    returned; the indices stay within the buffer of each other. -/
theorem console_line_discipline (buf : Nat → Byte) (i : BitVec 32) (ls : List (ConsoleLabel P)) :
    (∀ s, Run consoleSystem (Console.start buf i) ls s →
      (s.input.w - s.input.r).toNat ≤ (s.input.e - s.input.r).toNat ∧
      (s.input.e - s.input.r).toNat ≤ INPUT_BUF ∧
      ∃ t, Run ttySystem Tty.start ls t ∧ s.delivered = t.delivered ∧ s.returned = t.returned ∧
        (∀ p, (s.reading p).map Reading.dst = (t.reads p).map Read.got) ∧ InOrder t) ∧
    ∀ t, Run ttySystem Tty.start ls t →
      ∃ s, Run consoleSystem (Console.start buf i) ls s ∧ s.delivered = t.delivered ∧
        s.returned = t.returned := by
  have hstart : Alike (P := P) (Console.start buf i) Tty.start :=
    ⟨Shows.start buf i, fun _ => .none, rfl, rfl⟩
  refine ⟨fun s hrun => ?_, fun t hrun => ?_⟩
  · obtain ⟨t, hrun', h⟩ := inStep_tty.run hrun hstart
    refine ⟨?_, ?_, t, hrun', h.delivered, h.returned, fun p => ?_, ?_⟩
    · rw [h.ring.queue, h.ring.all, List.length_append]
      exact Nat.le_add_right _ _
    · rw [h.ring.all]
      exact h.ring.room
    · have hp := h.reads p
      generalize s.reading p = x at hp
      generalize t.reads p = y at hp
      cases hp with
      | none => rfl
      | some hrd => exact congrArg some hrd.dst
    · exact hrun'.invariant .start fun _ _ _ h hnext => h.next hnext
  · obtain ⟨s, hrun', h⟩ := inStep_tty.symm.run hrun hstart
    exact ⟨s, hrun', h.delivered, h.returned⟩

/-- Two processes read what is typed: `ab`, backspace, `c`, return, `d`, ^D. -/
def typing : List (ConsoleLabel Bool) :=
  [code 'a', code 'b', ctrl 'H', code 'c', code '\r', code 'd', ctrl 'D'].map .intr ++
  [.call true 1, .fetch true, .call false 9, .fetch false, .ret true, .fetch false, .ret false,
    .call true 9, .fetch true, .fetch true, .ret true, .call true 9, .fetch true, .ret true]

theorem console_line_discipline_typing :
    ∃ s, Run consoleSystem (Console.start (fun _ => 0) (-3) : Console Bool) typing s ∧
      s.returned = [(true, 1, [code 'a']), (false, 2, [code 'c', code '\n']), (true, 1, [code 'd']),
        (true, 0, [])] ∧
      ∃ t, Run ttySystem Tty.start typing t ∧ s.returned = t.returned := by
  have hrun : (consoleSystem.exec (fun _ _ => true) (Console.start (fun _ => 0) (-3) : Console Bool)
      typing).any (fun s => decide (s.returned = [(true, 1, [code 'a']),
        (false, 2, [code 'c', code '\n']), (true, 1, [code 'd']), (true, 0, [])])) = true := by
    decide +kernel
  obtain ⟨s, hs, hok⟩ := exists_run_of_exec hrun
  have hrun := hs.of_restrict
  obtain ⟨-, -, t, ht, -, hret, -⟩ := (console_line_discipline _ _ typing).1 s hrun
  exact ⟨s, hrun, hok, t, ht, hret⟩

end Xv6.Kern
