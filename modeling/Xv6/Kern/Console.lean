import Xv6.Param

/-! # The input buffer of the console

    The `input` structure of `console.c`: a ring of `INPUT_BUF` characters with
    a read, a write and an edit index. `intr` is what `consoleintr` does with
    one character, `fetch` what `consoleread` does with one. What they print
    is left out.
-/

namespace Xv6.Kern

/-- `INPUT_BUF` of `console.c`. -/
abbrev INPUT_BUF : Nat := 128

/-- Control-x. -/
def ctrl (x : Char) : Byte := BitVec.ofNat 8 (x.toNat - '@'.toNat)

/-- The code of a character. -/
def code (x : Char) : Byte := BitVec.ofNat 8 x.toNat

/-- `input`. -/
structure Input where
  buf : Nat → Byte
  r : BitVec 32
  w : BitVec 32
  e : BitVec 32

namespace Input

/-- Kill line; at most `n` characters. -/
def kill_line : (n : Nat) → Input → Input
  | 0, inp => inp
  | n + 1, inp =>
    if inp.e ≠ inp.w ∧ inp.buf ((inp.e - 1).toNat % INPUT_BUF) ≠ code '\n' then
      kill_line n { inp with e := inp.e - 1 }
    else
      inp

/-- What `consoleintr` does with the character `c`, and whether it calls
    `wakeup(&input.r)`. -/
def intr (inp : Input) (c : Byte) : Input × Bool :=
  if c = ctrl 'P' then
    -- the process listing comes later
    (inp, false)
  else if c = ctrl 'U' then
    (kill_line (inp.e - inp.w).toNat inp, false)
  else if c = ctrl 'H' ∨ c = 0x7f then
    if inp.e ≠ inp.w then
      ({ inp with e := inp.e - 1 }, false)
    else
      (inp, false)
  else if c ≠ 0 ∧ (inp.e - inp.r).toNat < INPUT_BUF then
    let c := if c = code '\r' then code '\n' else c
    let inp := { inp with
      buf := Function.update inp.buf (inp.e.toNat % INPUT_BUF) c
      e := inp.e + 1 }
    if c = code '\n' ∨ c = ctrl 'D' ∨ inp.e = inp.r + BitVec.ofNat 32 INPUT_BUF then
      ({ inp with w := inp.e }, true)
    else
      (inp, false)
  else
    (inp, false)

/-- `consoleread` takes a character; `none` stands for end of file. If it has
    read something already, it saves ^D for next time. -/
def fetch (inp : Input) (some_read : Bool) : Input × Option Byte :=
  let c := inp.buf (inp.r.toNat % INPUT_BUF)
  if c = ctrl 'D' then
    (if some_read then inp else { inp with r := inp.r + 1 }, none)
  else
    ({ inp with r := inp.r + 1 }, some c)

/-- Without a `wakeup`, the indices of complete lines stay as they are. -/
theorem intr_quiet (inp : Input) (c : Byte) (h : (inp.intr c).2 = false) :
    (inp.intr c).1.r = inp.r ∧ (inp.intr c).1.w = inp.w := by
  have hkill : ∀ n (i : Input), (kill_line n i).r = i.r ∧ (kill_line n i).w = i.w := by
    intro n
    induction n with
    | zero => exact fun i => ⟨rfl, rfl⟩
    | succ n ih =>
      intro i
      unfold kill_line
      split
      case isTrue => exact ih _
      case isFalse => exact ⟨rfl, rfl⟩
  revert h
  unfold intr
  split
  · exact fun _ => ⟨rfl, rfl⟩
  split
  · exact fun _ => hkill _ _
  split
  · split <;> exact fun _ => ⟨rfl, rfl⟩
  split
  · generalize (if c = code '\r' then code '\n' else c) = c'
    dsimp only
    split
    · exact nofun
    · exact fun _ => ⟨rfl, rfl⟩
  · exact fun _ => ⟨rfl, rfl⟩

end Input

end Xv6.Kern
