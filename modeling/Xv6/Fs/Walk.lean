import Mathlib.Data.List.TakeWhile
import Xv6.Fs.Atomic

/-! # Path names

    What a path names, in terms of the disk alone: the path is split at its
    slashes, and each piece is looked up in the directory reached so far.
    `namex`, running alone, returns the inode this walk ends at, with one more
    reference to it and nothing else changed. It needs an entry of the inode
    cache for each step.
-/

namespace Xv6.Fs

open Op Function

/-! ## The elements of a path -/

/-- The maximal runs of bytes that are not slashes, each cut to `DIRSIZ` bytes. -/
def runs (path : Name) : List Name :=
  ((path.splitOn SLASH).filter (· ≠ [])).map (·.take DIRSIZ)

/-- The names that repeated `skipelem` produces. -/
def elements : (fuel : Nat) → (path : Name) → List Name
  | 0, _ => []
  | fuel + 1, path =>
    match skipelem path with
    | none => []
    | some (name, rest) => name :: elements fuel rest

theorem runs_nil : runs [] = [] := by
  simp [runs]

theorem runs_slash (path : Name) : runs (SLASH :: path) = runs path := by
  have h := List.splitOn_append_cons_self (a := SLASH) [] path
  rw [List.nil_append, List.splitOn_nil] at h
  unfold runs
  rw [h]
  simp

theorem runs_dropWhile (path : Name) : runs (path.dropWhile (· = SLASH)) = runs path := by
  induction path with
  | nil => rfl
  | cons c path ih =>
    by_cases hc : c = SLASH
    · rw [List.dropWhile_cons_of_pos (by simpa using hc), ih, hc, runs_slash]
    · rw [List.dropWhile_cons_of_neg (by simpa using hc)]

/-- The first run of a path that does not start with a slash. -/
theorem runs_elem {w rest : Name} (hw : SLASH ∉ w) (hne : w ≠ []) (hrest : rest.head? = some SLASH ∨ rest = []) :
    runs (w ++ rest) = w.take DIRSIZ :: runs rest := by
  have hfirst : w.splitOn SLASH = [w] := List.splitOn_eq_singleton hw
  cases rest with
  | nil =>
    rw [List.append_nil, runs_nil]
    unfold runs
    rw [hfirst]
    simp [hne]
  | cons c rest =>
    obtain rfl : c = SLASH := by simpa using hrest
    rw [runs_slash]
    unfold runs
    rw [List.splitOn_append_cons_self, hfirst]
    simp [hne]

variable {path : Name}

theorem skipelem_none (h : skipelem path = none) : runs path = [] := by
  rw [← runs_dropWhile]
  unfold skipelem at h
  cases hp : path.dropWhile (· = SLASH) with
  | nil => exact runs_nil
  | cons c cs =>
    rw [hp] at h
    cases h

/-- `skipelem` takes off the first run; what is left does not start with a
    slash. -/
theorem skipelem_some {path name rest : Name} (h : skipelem path = some (name, rest)) :
    runs path = name :: runs rest ∧ rest.head? ≠ some SLASH := by
  have hhead := List.head?_dropWhile_not (· = SLASH) path
  rw [← runs_dropWhile]
  unfold skipelem at h
  cases hp : path.dropWhile (· = SLASH) with
  | nil =>
    rw [hp] at h
    cases h
  | cons c cs =>
    rw [hp] at h hhead
    obtain ⟨rfl, rfl⟩ : ((c :: cs).takeWhile (· ≠ SLASH)).take DIRSIZ = name ∧
        ((c :: cs).dropWhile (· ≠ SLASH)).dropWhile (· = SLASH) = rest := by simpa using h
    have hc : c ≠ SLASH := by simpa using hhead
    constructor
    · rw [runs_dropWhile]
      have hsplit := List.takeWhile_append_dropWhile (p := (· ≠ SLASH)) (l := c :: cs)
      conv_lhs => rw [← hsplit]
      refine runs_elem ?_ ?_ ?_
      · intro hmem
        have hne := List.mem_takeWhile_imp hmem
        simp at hne
      · rw [List.takeWhile_cons_of_pos (by simpa using hc)]
        exact List.cons_ne_nil _ _
      · have hend := List.head?_dropWhile_not (· ≠ SLASH) (c :: cs)
        cases hd : (c :: cs).dropWhile (· ≠ SLASH) with
        | nil => exact Or.inr rfl
        | cons d ds =>
          rw [hd] at hend
          left
          simpa using hend
    · have hend := List.head?_dropWhile_not (· = SLASH) ((c :: cs).dropWhile (· ≠ SLASH))
      intro heq
      rw [heq] at hend
      simp at hend

/-- Something is left exactly when another element is. -/
theorem runs_eq_nil_iff {rest : Name} (h : rest.head? ≠ some SLASH) : runs rest = [] ↔ rest = [] := by
  constructor
  · intro hruns
    by_contra hne
    cases hskip : skipelem rest with
    | none =>
      unfold skipelem at hskip
      cases rest with
      | nil => exact hne rfl
      | cons c cs =>
        have hc : c ≠ SLASH := by simpa using h
        rw [List.dropWhile_cons_of_neg (by simpa using hc)] at hskip
        cases hskip
    | some e =>
      obtain ⟨name, rest'⟩ := e
      rw [(skipelem_some hskip).1] at hruns
      cases hruns
  · rintro rfl
    exact runs_nil

theorem elements_eq_runs {fuel : Nat} (hfuel : path.length < fuel) :
    elements fuel path = runs path := by
  induction fuel generalizing path with
  | zero => omega
  | succ fuel ih =>
    unfold elements
    cases hskip : skipelem path with
    | none => exact (skipelem_none hskip).symm
    | some e =>
      obtain ⟨name, rest⟩ := e
      have hlen := length_skipelem hskip
      rw [(skipelem_some hskip).1]
      dsimp only
      rw [ih (by omega)]

/-! ## Following the elements -/

/-- The inode that `name` stands for in directory `n`. -/
def child (sb : Superblock) (disk : Disk) (n : Nat) (name : Name) : Option Nat :=
  if (dinode sb disk n).type = T_DIR then (search (data sb disk n) name).map Prod.fst else none

/-- The inode reached from `n` along `names`. -/
def walk (sb : Superblock) (disk : Disk) (n : Nat) (names : List Name) : Option Nat :=
  names.foldlM (child sb disk) n

/-- The directory that the last of `names` is an entry of, and that name. -/
def walkParent (sb : Superblock) (disk : Disk) (n : Nat) (names : List Name) : Option (Nat × Name) := do
  let name ← names.getLast?
  let d ← walk sb disk n names.dropLast
  if (dinode sb disk d).type = T_DIR then some (d, name) else none

/-- What `namex` looks for, from inode `n`. -/
def target (sb : Superblock) (disk : Disk) (parent : Bool) (n : Nat) (names : List Name) :
    Option (Nat × Name) :=
  if parent then walkParent sb disk n names else (walk sb disk n names).map fun m => (m, [])

variable {sb : Superblock} {p : Pid} {s s' : FsState} {E : String → Prop} {disk : Disk} {n m : Nat}
  {parent : Bool} {name : Name} {names : List Name} {ip : Slot} {l : Slot → Option Pid}

theorem target_nil : target sb disk parent n [] = if parent then none else some (n, []) := by
  cases parent <;> rfl

theorem target_cons (h : ¬(parent = true ∧ names = [])) : target sb disk parent n (name :: names) =
    (child sb disk n name).bind fun m => target sb disk parent m names := by
  unfold target walkParent walk
  cases parent with
  | false =>
    simp only [Bool.false_eq_true, if_false, List.foldlM_cons]
    cases child sb disk n name with
    | none => rfl
    | some m => rfl
  | true =>
    obtain ⟨b, bs, rfl⟩ := List.exists_cons_of_ne_nil fun hnil : names = [] => h ⟨rfl, hnil⟩
    simp only [if_true, List.dropLast_cons_cons, List.getLast?_cons_cons, List.foldlM_cons]
    cases child sb disk n name with
    | none =>
      cases (b :: bs).getLast? with
      | none => rfl
      | some last => rfl
    | some m => rfl

theorem target_last : target sb disk true n [name] =
    if (dinode sb disk n).type = T_DIR then some (n, name) else none := rfl

theorem child_eq_none (h : (dinode sb disk n).type ≠ T_DIR) : child sb disk n name = none := if_neg h

theorem child_of_dir (h : (dinode sb disk n).type = T_DIR) (name : Name) :
    child sb disk n name = (search (data sb disk n) name).map Prod.fst := if_pos h

/-! ## Room in the inode cache -/

/-- Inode `n` is in the cache. -/
def Cached (s : FsState) (n : Nat) : Prop := ∃ i, 0 < (s.icache i).ref ∧ (s.icache i).inum = n

instance (s : FsState) : DecidablePred (Cached s) := fun _ => inferInstanceAs (Decidable (∃ _, _))

/-- The entries of the cache that are not in use. -/
def freeSlots (s : FsState) : Finset Slot := Finset.univ.filter fun i => (s.icache i).ref = 0

/-- The cache of `s` has room for inode `m` while `n` is held. -/
def Fits (s : FsState) (n m : Nat) : Prop :=
  m = n ∨ Cached s m ∨ (if Cached s n then 1 else 2) ≤ (freeSlots s).card

/-- The cache has room at every step from `n` along `names`. -/
def Fitting (sb : Superblock) (s : FsState) : (n : Nat) → (names : List Name) → Prop
  | _, [] => True
  | n, name :: names => ∀ m, child sb s.disk n name = some m → Fits s n m ∧ Fitting sb s m names

/-- The steps that `namex` takes along `names`. -/
def steps (parent : Bool) (names : List Name) : List Name := if parent then names.dropLast else names

theorem steps_cons (h : ¬(parent = true ∧ names = [])) :
    steps parent (name :: names) = name :: steps parent names := by
  unfold steps
  cases parent with
  | false => rfl
  | true =>
    obtain ⟨b, bs, rfl⟩ := List.exists_cons_of_ne_nil fun hnil : names = [] => h ⟨rfl, hnil⟩
    rfl

/-- Nothing is running: the cache agrees with the disk, and no inode is
    locked. An inode without links is in the cache, since somebody still uses
    it. -/
structure Calm (sb : Superblock) (s : FsState) : Prop where
  image : Image sb s.disk (inodes sb s.disk) (dinode sb s.disk)
  names : ∀ n ∈ inodes sb s.disk, (dinode sb s.disk n).type = T_DIR →
    NamesBelow sb.ninodes (data sb s.disk n)
  cache : Cache sb s
  ref : ∀ i, 0 ≤ (s.icache i).ref
  free : ∀ i, (s.icache i).lock = none
  links : ∀ n ∈ inodes sb s.disk, (dinode sb s.disk n).nlink = 0 → Cached s n

theorem Calm.beside (h : Calm sb s) : Beside sb s 0 (fun _ => none) s where
  disk := rfl
  outstanding := rfl
  ftable := rfl
  proc := rfl
  ref i := by simp
  kept _ _ := rfl
  loaded _ _ := id
  lock := h.free
  dev := h.cache.dev
  inj := h.cache.inj
  sync := h.cache.sync

/-- The entry that is held belongs to an inode of the cache. -/
theorem Beside.cached (h : Beside sb s (Pi.single ip 1) l s') (hpos : ∀ i, 0 ≤ (s.icache i).ref) :
    Cached s (s'.icache ip).inum ↔ (s.icache ip).ref ≠ 0 := by
  have href := h.ref ip
  have hip := hpos ip
  rw [Pi.single_eq_same] at href
  constructor
  · rintro ⟨j, hj, hinum⟩
    have hrefj := h.ref j
    have hij : j = ip := h.inj j ip (by omega) (by omega) (by rw [h.kept j hj, hinum])
    subst hij
    omega
  · intro hne
    exact ⟨ip, by omega, (h.kept ip (by omega)).symm⟩

/-- There is room in `s'` exactly when there was in `s`, given the entry that
    is held. -/
theorem Beside.noRoom_iff (h : Beside sb s (Pi.single ip 1) l s') (hpos : ∀ i, 0 ≤ (s.icache i).ref)
    (m : Nat) : NoRoom s' m ↔ ¬Fits s (s'.icache ip).inum m := by
  have href := h.ref ip
  have hip := hpos ip
  rw [Pi.single_eq_same] at href
  have hother : ∀ j, j ≠ ip → (s'.icache j).ref = (s.icache j).ref := by
    intro j hj
    rw [h.ref j, Pi.single_eq_of_ne hj]
    simp
  -- the inodes in the cache
  have hin : (∀ j, 0 < (s'.icache j).ref → (s'.icache j).inum ≠ m) ↔
      ¬(m = (s'.icache ip).inum ∨ Cached s m) := by
    constructor
    · rintro hall (rfl | ⟨j, hj, hinum⟩)
      · exact hall ip (by omega) rfl
      · have hrefj := h.ref j
        exact hall j (by omega) (by rw [h.kept j hj, hinum])
    · intro hno j hj hinum
      by_cases hji : j = ip
      · subst hji
        exact hno (Or.inl hinum.symm)
      · rw [hother j hji] at hj
        exact hno (Or.inr ⟨j, hj, by rw [← h.kept j hj, hinum]⟩)
  -- the entries that are not in use
  have hout : (∀ j, (s'.icache j).ref ≠ 0) ↔ freeSlots s ⊆ {ip} := by
    constructor
    · intro hall j hj
      rw [Finset.mem_singleton]
      by_contra hji
      exact hall j (by rw [hother j hji]; exact (Finset.mem_filter.mp hj).2)
    · intro hsub j hj
      by_cases hji : j = ip
      · subst hji
        omega
      · rw [hother j hji] at hj
        exact hji (Finset.mem_singleton.mp (hsub (Finset.mem_filter.mpr ⟨Finset.mem_univ j, hj⟩)))
  have hcard : freeSlots s ⊆ {ip} ↔
      ¬(if Cached s (s'.icache ip).inum then 1 else 2) ≤ (freeSlots s).card := by
    by_cases hc : Cached s (s'.icache ip).inum
    · rw [if_pos hc]
      have hne := (h.cached hpos).mp hc
      have hnot : ip ∉ freeSlots s := fun hmem => hne (Finset.mem_filter.mp hmem).2
      rw [Finset.subset_singleton_iff, Nat.not_le, Nat.lt_one_iff, Finset.card_eq_zero]
      constructor
      · rintro (hempty | hone)
        · exact hempty
        · rw [hone] at hnot
          exact absurd (Finset.mem_singleton_self ip) hnot
      · exact Or.inl
    · rw [if_neg hc]
      have hzero : (s.icache ip).ref = 0 := by
        by_contra hne
        exact hc ((h.cached hpos).mpr hne)
      have hmem : ip ∈ freeSlots s := Finset.mem_filter.mpr ⟨Finset.mem_univ ip, hzero⟩
      constructor
      · intro hsub
        have := Finset.card_le_card hsub
        rw [Finset.card_singleton] at this
        omega
      · intro hle j hj
        rw [Finset.mem_singleton]
        exact Finset.card_le_one.mp (by omega) j hj ip hmem
  unfold NoRoom Fits
  rw [hin, hout, hcard]
  tauto

/-- The inode that is held is not freed when it is given up. -/
theorem Calm.not_last (hc : Calm sb s) (h : Beside sb s (Pi.single ip 1) l s')
    (hmem : (s'.icache ip).inum ∈ inodes sb s.disk)
    (h0 : (dinode sb s.disk (s'.icache ip).inum).nlink = 0) : (s.icache ip).ref ≠ 0 :=
  (h.cached hc.ref).mp (hc.links _ hmem h0)

theorem Calm.child_lt (hc : Calm sb s) (hmem : n ∈ inodes sb s.disk)
    (h : child sb s.disk n name = some m) : m < sb.ninodes := by
  by_cases hdir : (dinode sb s.disk n).type = T_DIR
  · rw [child_of_dir hdir, Option.map_eq_some_iff] at h
    obtain ⟨⟨m', off⟩, hfind, rfl⟩ := h
    obtain ⟨k, hhas, -, -, heq⟩ := search_eq_some.mp hfind
    cases heq
    exact hc.names n hmem hdir k hhas
  · rw [child_eq_none hdir] at h
    cases h

/-! ## `namex` -/

/-- `namex` returned `r`: the inode it looked for has one more reference, and
    nothing else has changed. -/
def Resolved (sb : Superblock) (s : FsState) (t : Option (Nat × Name)) :
    Option (Slot × Name) → FsState → Prop
  | none, s' => t = none ∧ Beside sb s 0 (fun _ => none) s'
  | some (ip, name), s' => t = some ((s'.icache ip).inum, name) ∧
      Beside sb s (Pi.single ip 1) (fun _ => none) s'

theorem update_again (h : l ip = none) (x : Option Pid) : update (update l ip x) ip none = l := by
  rw [update_idem, ← h, update_eq_self]

/-- Each step of the walk gives up the inode it has come from. -/
theorem wp_namex_loop (hc : Calm sb s)
    (hkids : ∀ d ∈ inodes sb s.disk, ∀ name m, child sb s.disk d name = some m →
      (dinode sb s.disk m).type = 0 → E "ilock: no type")
    (hwhole : ∀ d ∈ inodes sb s.disk, (dinode sb s.disk d).type = T_DIR →
      (data sb s.disk d).length % DIRENT ≠ 0 → E "dirlookup read") {fuel : Nat}
    (hfuel : path.length < fuel) (hb : Beside sb s (Pi.single ip 1) (fun _ => none) s')
    (hn : (s'.icache ip).inum = n) (hlt : n < sb.ninodes)
    (htype : (dinode sb s.disk n).type = 0 → E "ilock: no type")
    (hroom : ¬Fitting sb s n (steps parent (runs path)) → E "iget: no inodes") :
    wp (namex_loop sb p parent fuel ip path).run E (fun r s'' =>
      Fitting sb s n (steps parent (runs path)) ∧
        Resolved sb s (target sb s.disk parent n (runs path)) r s'') s' := by
  induction fuel generalizing ip path s' n with
  | zero => omega
  | succ fuel ih =>
    subst hn
    have href := hb.ref ip
    have hpos := hc.ref ip
    rw [Pi.single_eq_same] at href
    have hb0 : Beside sb s (0 + Pi.single ip 1) (fun _ => none) s' := by rwa [zero_add]
    unfold namex_loop
    cases hskip : skipelem path with
    | none =>
      have hruns := skipelem_none hskip
      rw [hruns, target_nil]
      have hfit : Fitting sb s (s'.icache ip).inum (steps parent []) := by
        cases parent <;> exact trivial
      cases parent with
      | true =>
        simp only [if_true]
        rw [wp_run_bind]
        refine hb0.wp_iput rfl hpos (fun hv h0 => ?_) fun s₁ h₁ _ => ⟨hfit, rfl, h₁⟩
        have hmem : (s'.icache ip).inum ∈ inodes sb s.disk := by
          obtain ⟨hcopy, h⟩ := hb.sync ip (by omega) hv
          exact ⟨hlt, by rw [← hcopy]; exact h⟩
        have := hc.not_last hb hmem h0
        omega
      | false => exact ⟨hfit, rfl, hb⟩
    | some e =>
      obtain ⟨name, rest⟩ := e
      obtain ⟨hruns, hhead⟩ := skipelem_some hskip
      have hshort := length_skipelem hskip
      rw [hruns] at hroom ⊢
      simp only
      rw [wp_run_bind]
      refine hb.wp_ilock (by omega) rfl htype fun s₁ h₁ hinum hv₁ hcopy₁ htype₁ => ?_
      have hinum₁ := hinum ip
      rw [wp_run_bind]
      refine wp_inode ?_
      have hmem : (s'.icache ip).inum ∈ inodes sb s.disk := ⟨hlt, htype₁⟩
      have href₁ := h₁.ref ip
      rw [Pi.single_eq_same] at href₁
      -- giving up this inode, with or without a reference to the next one
      have hput : ∀ (f : Slot → Nat) (s₂ : FsState) {Q : Unit → FsState → Prop},
          Beside sb s (f + Pi.single ip 1) (update (fun _ => none) ip (some p)) s₂ →
          (s₂.icache ip).inum = (s'.icache ip).inum →
          (∀ s₃, Beside sb s f (fun _ => none) s₃ →
            (∀ j, (s₃.icache j).inum = (s₂.icache j).inum) → Q () s₃) →
          wp (iunlockput sb p ip .plain).run E Q s₂ := by
        intro f s₂ Q h₂ hinum₂ hQ
        have href₂ := h₂.ref ip
        simp only [Pi.add_apply, Pi.single_eq_same] at href₂
        push_cast at href₂
        refine h₂.wp_iunlockput (by simp) hpos (fun h0 => ?_) fun s₃ h₃ => ?_
        · rw [hinum₂] at h0
          have := hc.not_last hb hmem h0
          omega
        · rw [update_again rfl] at h₃
          exact hQ s₃ h₃
      by_cases hdir : (s₁.icache ip).type ≠ T_DIR
      · rw [if_pos hdir, wp_run_bind]
        refine hput 0 s₁ (by rwa [zero_add]) hinum₁ fun s₂ h₂ _ => ?_
        have hdir' : (dinode sb s.disk (s'.icache ip).inum).type ≠ T_DIR := by rwa [← hcopy₁]
        by_cases hstop : parent = true ∧ runs rest = []
        · obtain ⟨rfl, hnil⟩ := hstop
          rw [hnil, target_last, if_neg hdir']
          exact ⟨trivial, rfl, h₂⟩
        · rw [target_cons hstop, steps_cons hstop, child_eq_none hdir']
          refine ⟨fun m hm => ?_, rfl, h₂⟩
          rw [child_eq_none hdir'] at hm
          cases hm
      · rw [if_neg hdir]
        rw [not_not] at hdir
        have hdir' : (dinode sb s.disk (s'.icache ip).inum).type = T_DIR := by rwa [← hcopy₁]
        by_cases hstop : parent = true ∧ rest = []
        · -- stop one level early
          rw [if_pos hstop, wp_run_bind]
          obtain ⟨rfl, rfl⟩ := hstop
          refine h₁.wp_iunlock (by omega) (by simp) fun s₂ h₂ hinum₂ => ?_
          rw [update_again rfl] at h₂
          rw [runs_nil, target_last, if_pos hdir']
          refine ⟨trivial, ?_, h₂⟩
          rw [hinum₂, hinum₁]
        · rw [if_neg hstop, wp_run_bind]
          rw [← runs_eq_nil_iff hhead] at hstop
          rw [target_cons hstop]
          rw [steps_cons hstop] at hroom ⊢
          have hbytes : s₁.bytes sb ip = data sb s.disk (s'.icache ip).inum := by
            unfold FsState.bytes
            rw [h₁.disk, hinum₁]
          have hs₁ : Synced sb s₁ ip := by
            refine ⟨?_, ?_⟩
            · rw [h₁.disk, hinum₁]
              exact hmem
            · rw [h₁.disk, hinum₁]
              exact hcopy₁
          have hnoroom := h₁.noRoom_iff hc.ref
          rw [hinum₁] at hnoroom
          have hchild := child_of_dir hdir' name
          rw [← hbytes] at hchild
          refine h₁.wp_dirlookup hc.image (by omega) hs₁ hdir ?_ ?_ ?_ ?_
          · rw [hbytes]
            exact hwhole _ hmem hdir'
          · intro m off hfind hno
            refine hroom fun hfit => ?_
            rw [hfind] at hchild
            exact (hnoroom m).mp hno (hfit m hchild).1
          · intro hfind
            rw [hfind] at hchild
            rw [wp_run_bind]
            refine hput 0 s₁ (by rwa [zero_add]) hinum₁ fun s₂ h₂ _ => ⟨fun m hm => ?_, ?_, h₂⟩
            · rw [hchild] at hm
              cases hm
            · rw [hchild]
              rfl
          · intro m off i s₂ hfind hgot hok h₂ hinum₂
            rw [hfind] at hchild
            have hm : child sb s.disk (s'.icache ip).inum name = some m := hchild
            have hfits : Fits s (s'.icache ip).inum m := by
              by_contra hno
              exact hok ((hnoroom m).mpr hno)
            rw [wp_run_bind]
            refine hput (Pi.single i 1) s₂ (by rwa [add_comm]) ?_ fun s₃ h₃ hinum₃ => ?_
            · rw [← hinum₁]
              exact hgot.inum_kept (by omega)
            · refine (ih (by omega) h₃ (by rw [hinum₃, hinum₂]) (hc.child_lt hmem hm)
                (hkids _ hmem name m hm) fun hno => hroom fun hfit => hno (hfit m hm).2).imp ?_
              rintro r s₄ ⟨hfit, hres⟩
              refine ⟨fun m' hm' => ?_, ?_⟩
              · rw [hm, Option.some.injEq] at hm'
                subst hm'
                exact ⟨hfits, hfit⟩
              · rw [hm]
                exact hres

/-- The inode at which the walk along `path` starts. -/
def start (s : FsState) (p : Pid) (path : Name) : Option Nat :=
  if path.head? = some SLASH then some ROOTINO else (s.proc p).cwd.map fun i => (s.icache i).inum

/-- The cache has room for the whole walk. -/
def Room (sb : Superblock) (s : FsState) (p : Pid) (parent : Bool) (path : Name) : Prop :=
  (path.head? = some SLASH → Cached s ROOTINO ∨ (freeSlots s).Nonempty) ∧
    ∀ n, start s p path = some n → Fitting sb s n (steps parent (runs path))

theorem noRoom_iff : NoRoom s n ↔ ¬(Cached s n ∨ ¬∀ j, (s.icache j).ref ≠ 0) := by
  unfold NoRoom Cached
  push Not
  rfl

theorem freeSlots_nonempty : (freeSlots s).Nonempty ↔ ¬∀ j, (s.icache j).ref ≠ 0 := by
  push Not
  constructor
  · rintro ⟨i, hi⟩
    exact ⟨i, (Finset.mem_filter.mp hi).2⟩
  · rintro ⟨i, hi⟩
    exact ⟨i, Finset.mem_filter.mpr ⟨Finset.mem_univ i, hi⟩⟩

/-- `namex` finds what the walk on the disk ends at, if the cache has room. -/
theorem wp_namex (hc : Calm sb s)
    (hkids : ∀ d ∈ inodes sb s.disk, ∀ name m, child sb s.disk d name = some m →
      (dinode sb s.disk m).type = 0 → E "ilock: no type")
    (hwhole : ∀ d ∈ inodes sb s.disk, (dinode sb s.disk d).type = T_DIR →
      (data sb s.disk d).length % DIRENT ≠ 0 → E "dirlookup read") (hroot : ROOTINO < sb.ninodes)
    (hcwd : ∀ i, (s.proc p).cwd = some i → 0 < (s.icache i).ref)
    (htrap : (s.proc p).cwd = none → E "trap")
    (htype : ∀ n, start s p path = some n → (dinode sb s.disk n).type = 0 → E "ilock: no type")
    (hroom : ¬Room sb s p parent path → E "iget: no inodes") :
    wp (namex sb p path parent).run E (fun r s' => Room sb s p parent path ∧
      Resolved sb s ((start s p path).bind fun n => target sb s.disk parent n (runs path)) r s') s := by
  -- the loop starts with one reference, to inode `n`
  have hloop : ∀ ip s₁ n, start s p path = some n → n < sb.ninodes →
      (path.head? = some SLASH → Cached s ROOTINO ∨ (freeSlots s).Nonempty) →
      Beside sb s (Pi.single ip 1) (fun _ => none) s₁ → (s₁.icache ip).inum = n →
      wp (namex_loop sb p parent (path.length + 1) ip path).run E (fun r s' => Room sb s p parent path ∧
        Resolved sb s ((start s p path).bind fun n => target sb s.disk parent n (runs path)) r s') s₁ := by
    intro ip s₁ n hn hlt hfirst h₁ hinum
    have hiff : Room sb s p parent path ↔ Fitting sb s n (steps parent (runs path)) := by
      constructor
      · intro h
        exact h.2 n hn
      · intro h
        refine ⟨hfirst, fun m hm => ?_⟩
        rw [hn, Option.some.injEq] at hm
        exact hm ▸ h
    rw [hiff] at hroom ⊢
    rw [hn]
    exact wp_namex_loop hc hkids hwhole (Nat.lt_succ_self _) h₁ hinum hlt (htype n hn) hroom
  unfold namex
  by_cases hslash : path.head? = some SLASH
  · rw [if_pos hslash, wp_run_bind, Prog.run_atomic]
    refine wp_iget hc.cache.dev (fun hno => hroom fun hr => ?_) fun i s₁ hgot => ?_
    · have := hr.1 hslash
      rw [freeSlots_nonempty] at this
      exact noRoom_iff.mp hno this
    · obtain ⟨h₁, hinum⟩ := hc.beside.got hgot
      rw [zero_add] at h₁
      refine hloop i s₁ ROOTINO (if_pos hslash) hroot (fun _ => ?_) h₁ hinum
      cases hgot with
      | hit href hnum => exact Or.inl ⟨i, href, hnum⟩
      | miss _ hfree => exact Or.inr ⟨i, Finset.mem_filter.mpr ⟨Finset.mem_univ i, hfree⟩⟩
  · rw [if_neg hslash, wp_run_bind]
    unfold idup_cwd idup
    rw [Prog.run_atomic]
    simp only [wp_bind, wp_get]
    cases hdir : (s.proc p).cwd with
    | none => exact htrap hdir
    | some i =>
      have href := hcwd i hdir
      simp only [wp_bind, wp_modify, wp_pure]
      obtain ⟨h₁, hinum⟩ := hc.beside.got (.hit href rfl)
      rw [zero_add] at h₁
      have hstart : start s p path = some (s.icache i).inum := by
        unfold start
        rw [if_neg hslash, hdir]
        rfl
      exact hloop i _ _ hstart (hc.cache.inum_lt i href) (fun h => absurd h hslash) h₁ hinum

/-- `namei` returned `r`. -/
def Returned (sb : Superblock) (s : FsState) (t : Option Nat) : Option Slot → FsState → Prop
  | none, s' => t = none ∧ Beside sb s 0 (fun _ => none) s'
  | some ip, s' => t = some (s'.icache ip).inum ∧ Beside sb s (Pi.single ip 1) (fun _ => none) s'

theorem Resolved.returned {r : Option (Slot × Name)}
    (h : Resolved sb s ((start s p path).bind fun n => target sb s.disk false n (runs path)) r s') :
    Returned sb s ((start s p path).bind fun n => walk sb s.disk n (runs path)) (r.map Prod.fst) s' := by
  cases hn : start s p path with
  | none =>
    rw [hn] at h
    cases r with
    | none => exact ⟨rfl, h.2⟩
    | some e => cases h.1
  | some n =>
    rw [hn] at h
    cases r with
    | none =>
      refine ⟨?_, h.2⟩
      exact Option.map_eq_none_iff.mp h.1
    | some e =>
      obtain ⟨m, hm, heq⟩ := Option.map_eq_some_iff.mp h.1
      refine ⟨?_, h.2⟩
      show walk sb s.disk n (runs path) = _
      rw [hm]
      exact congrArg (fun e => some e.1) heq

/-- The entries of all directories name allocated inodes. -/
def NamesAllocated (sb : Superblock) (disk : Disk) : Prop :=
  ∀ d ∈ inodes sb disk, (dinode sb disk d).type = T_DIR → ∀ k, HasEntry (data sb disk d) k →
    direntInum (entry (data sb disk d) k) ≠ 0 → direntInum (entry (data sb disk d) k) ∈ inodes sb disk

theorem NamesAllocated.child (h : NamesAllocated sb disk) (hn : n ∈ inodes sb disk)
    (hm : child sb disk n name = some m) : m ∈ inodes sb disk := by
  by_cases hdir : (dinode sb disk n).type = T_DIR
  · rw [child_of_dir hdir, Option.map_eq_some_iff] at hm
    obtain ⟨⟨m', off⟩, hfind, rfl⟩ := hm
    obtain ⟨k, hhas, hname, -, heq⟩ := search_eq_some.mp hfind
    cases heq
    exact h n hn hdir k hhas hname.1
  · rw [child_eq_none hdir] at hm
    cases hm

/-- A calm state in which all that can be named exists. -/
structure Sound (sb : Superblock) (p : Pid) (s : FsState) : Prop extends Calm sb s where
  allocated : NamesAllocated sb s.disk
  whole : ∀ d ∈ inodes sb s.disk, (dinode sb s.disk d).type = T_DIR →
    (data sb s.disk d).length % DIRENT = 0
  root : ROOTINO ∈ inodes sb s.disk
  cwd : ∃ i, (s.proc p).cwd = some i ∧ 0 < (s.icache i).ref ∧ (s.icache i).inum ∈ inodes sb s.disk

theorem Sound.wp_namex (h : Sound sb p s) (parent : Bool)
    (hroom : ¬Room sb s p parent path → E "iget: no inodes") :
    wp (namex sb p path parent).run E (fun r s' => Room sb s p parent path ∧
      Resolved sb s ((start s p path).bind fun n => target sb s.disk parent n (runs path)) r s') s := by
  obtain ⟨i, hcwd, href, hmem⟩ := h.cwd
  refine Fs.wp_namex h.toCalm (fun d hd name m hm h0 => ?_) (fun d hd hdir hne => ?_) h.root.1 (fun j hj => ?_)
    (fun hnone => ?_) (fun n hn h0 => ?_) hroom
  · exact absurd h0 (h.allocated.child hd hm).2
  · exact absurd (h.whole d hd hdir) hne
  · rw [hcwd, Option.some.injEq] at hj
    exact hj ▸ href
  · rw [hcwd] at hnone
    cases hnone
  · unfold start at hn
    by_cases hslash : path.head? = some SLASH
    · rw [if_pos hslash, Option.some.injEq] at hn
      exact absurd h0 (hn ▸ h.root.2)
    · rw [if_neg hslash, hcwd] at hn
      cases hn
      exact absurd h0 hmem.2

theorem Sound.wp_namei (h : Sound sb p s) (hroom : ¬Room sb s p false path → E "iget: no inodes") :
    wp (namei sb p path).run E (fun r s' => Room sb s p false path ∧
      Returned sb s ((start s p path).bind fun n => walk sb s.disk n (runs path)) r s') s := by
  unfold namei
  rw [wp_run_bind]
  refine (h.wp_namex false hroom).imp ?_
  rintro r s' ⟨hfit, hres⟩
  have hret := hres.returned
  cases r with
  | none => exact ⟨hfit, hret⟩
  | some e => exact ⟨hfit, hret⟩

/-- The names are the runs of the path. `namei` and `nameiparent` return what
    following them on the disk ends at, with one more reference and nothing
    else changed; without room in the inode cache they panic. -/
theorem path_resolution (h : Sound sb p s) (path : Name) :
    (∀ fuel, path.length < fuel → elements fuel path = runs path) ∧
    (Room sb s p false path → ∃ r s', (namei sb p path).run s = .ok r s' ∧
      Returned sb s ((start s p path).bind fun n => walk sb s.disk n (runs path)) r s') ∧
    (¬Room sb s p false path → (namei sb p path).run s = .panic "iget: no inodes") ∧
    (Room sb s p true path → ∃ r s', (nameiparent sb p path).run s = .ok r s' ∧
      Resolved sb s ((start s p path).bind fun n => walkParent sb s.disk n (runs path)) r s') ∧
    (¬Room sb s p true path → (nameiparent sb p path).run s = .panic "iget: no inodes") := by
  refine ⟨fun fuel hfuel => elements_eq_runs hfuel, fun hroom => ?_, fun hno => ?_, fun hroom => ?_,
    fun hno => ?_⟩
  · obtain ⟨r, s', hrun, -, hret⟩ := (h.wp_namei (E := fun _ => False) (absurd hroom)).returns
    exact ⟨r, s', hrun, hret⟩
  · refine wp.panics ((h.wp_namei (E := fun e => e = _) fun _ => rfl).imp ?_)
    rintro r s' ⟨hroom, -⟩
    exact hno hroom
  · obtain ⟨r, s', hrun, -, hres⟩ :=
      (h.wp_namex (E := fun _ => False) true (absurd hroom)).returns
    exact ⟨r, s', hrun, hres⟩
  · refine wp.panics ((h.wp_namex (E := fun e => e = _) true fun _ => rfl).imp ?_)
    rintro r s' ⟨hroom, -⟩
    exact hno hroom

/-! ## A full inode cache -/

/-- An empty file with one link. -/
def emptyFile : Dinode := { blank T_FILE with nlink := 1 }

/-- A root directory with the entries `f` and `g`, and `k` files. -/
def manyFiles : (k : Nat) → Disk
  | 0 => rootDisk [(".", ROOTINO), ("..", ROOTINO), ("f", 51), ("g", 2)]
  | k + 1 => setDinode .mkfs (setDinode .mkfs (manyFiles k) (k + 2) (blank T_FILE)) (k + 2) emptyFile

theorem dinode_manyFiles {k : Nat} {n : Nat} (hn : n < 200) : dinode .mkfs (manyFiles k) n =
    if n = ROOTINO then rootInode else if 2 ≤ n ∧ n < k + 2 then emptyFile else .zero := by
  induction k with
  | zero =>
    show dinode .mkfs (rootDisk _) n = _
    rw [dinode_rootDisk _ hn, if_neg (show ¬(2 ≤ n ∧ n < 0 + 2) by omega)]
  | succ k ih =>
    show dinode .mkfs (setDinode .mkfs (setDinode .mkfs (manyFiles k) _ _) _ _) n = _
    by_cases hnk : n = k + 2
    · subst hnk
      rw [dinode_setDinode_self, if_neg (show k + 2 ≠ ROOTINO by simp only [ROOTINO]; omega),
        if_pos (by omega)]
    · rw [dinode_setDinode_ne _ hnk, dinode_setDinode_ne _ hnk, ih]
      congr 2
      rw [eq_iff_iff]
      omega

theorem volume_manyFiles {k : Nat} (hk : k ≤ 50) : Volume .mkfs (manyFiles k) ∧
    data .mkfs (manyFiles k) ROOTINO = data .mkfs (manyFiles 0) ROOTINO := by
  induction k with
  | zero =>
    refine ⟨⟨image_rootDisk _, noLeak_rootDisk _, fun n hn _ => ?_⟩, rfl⟩
    rw [show manyFiles 0 = rootDisk _ from rfl, inodes_rootDisk] at hn
    obtain rfl : n = ROOTINO := hn
    have h : ∀ k < 32, direntInum (entry (data .mkfs (manyFiles 0) ROOTINO) k) < 200 := by
      decide +kernel
    intro j hj
    refine h j ?_
    rw [hasEntry_iff, length_data, dinode_manyFiles (by decide)] at hj
    exact hj
  | succ k ih =>
    obtain ⟨hvol, hdata⟩ := ih (by omega)
    have hroot : ROOTINO ≠ k + 2 := by simp only [ROOTINO]; omega
    have hlt : k + 2 < Superblock.mkfs.ninodes := by
      show k + 2 < 200
      omega
    have hfree : (dinode .mkfs (manyFiles k) (k + 2)).type = 0 := by
      rw [dinode_manyFiles (by omega), if_neg hroot.symm, if_neg (by omega)]
      rfl
    obtain ⟨htouch, -⟩ := hvol.ialloc (t := T_FILE) hlt hfree (by decide)
    have hself : dinode .mkfs (setDinode .mkfs (manyFiles k) (k + 2) (blank T_FILE)) (k + 2) =
        blank T_FILE := dinode_setDinode_self _ _
    obtain ⟨htouch', -, -⟩ := htouch.volume.setFields (d := emptyFile) (n := k + 2)
      ⟨hlt, by rw [hself]; decide⟩ (by rw [hself]; rfl) (by rw [hself]; rfl) (by rw [hself]; rfl)
    have hmem : ROOTINO ∈ inodes .mkfs (manyFiles k) := by
      refine ⟨by decide, ?_⟩
      rw [dinode_manyFiles (by decide), if_pos rfl]
      decide
    have hmem' : ROOTINO ∈ inodes .mkfs (setDinode .mkfs (manyFiles k) (k + 2) (blank T_FILE)) := by
      refine ⟨by decide, ?_⟩
      rw [dinode_setDinode_ne _ hroot]
      exact hmem.2
    refine ⟨htouch'.volume, ?_⟩
    rw [← hdata, ← htouch.data ROOTINO hmem hroot]
    exact htouch'.data ROOTINO hmem' hroot

/-- The root directory and 49 of 50 files are in the cache. -/
def fullCache : FsState where
  disk := manyFiles 50
  outstanding := 1
  icache i := { Inode.empty with dev := ROOTDEV, inum := i + 1, ref := 1 }
  ftable _ := ⟨.FD_NONE, 0, false, false, 0, 0⟩
  proc _ := ⟨fun _ => none, some 0⟩

theorem fullCache_sound : Sound .mkfs 0 fullCache := by
  obtain ⟨hvol, hdata⟩ := volume_manyFiles (k := 50) le_rfl
  have hdinode : ∀ n < 200, dinode .mkfs fullCache.disk n =
      if n = ROOTINO then rootInode else if 2 ≤ n ∧ n < 52 then emptyFile else .zero :=
    fun n hn => dinode_manyFiles hn
  -- the root directory is the only directory
  have hdir : ∀ d ∈ inodes .mkfs fullCache.disk, (dinode .mkfs fullCache.disk d).type = T_DIR →
      d = ROOTINO := by
    intro d hd htype
    by_contra hne
    rw [hdinode d hd.1, if_neg hne] at htype
    split at htype
    · exact absurd htype (by decide)
    · exact absurd htype (by decide)
  have hlen : (data .mkfs fullCache.disk ROOTINO).length = 512 := by
    rw [length_data, hdinode _ (by decide)]
    rfl
  have hmem : ∀ n, 1 ≤ n → n < 52 → n ∈ inodes .mkfs fullCache.disk := by
    intro n h1 h52
    refine ⟨show n < 200 by omega, ?_⟩
    rw [hdinode n (by omega)]
    by_cases hn : n = ROOTINO
    · rw [if_pos hn]
      decide
    · rw [if_neg hn, if_pos (by simp only [ROOTINO] at hn; omega)]
      decide
  refine ⟨⟨hvol.image, hvol.names, ⟨fun i _ => ?_, fun _ _ => rfl, fun i j _ _ h => ?_, fun _ _ hv => ?_⟩,
    fun _ => Int.one_nonneg, fun _ => rfl, fun n hn h0 => ?_⟩, fun d hd htype k hk hlive => ?_,
    fun d hd htype => ?_, hmem _ (by decide) (by decide), 0, rfl, by decide, hmem _ (by decide) (by decide)⟩
  · have := i.isLt
    show i.val + 1 < 200
    simp only [NINODE] at this
    omega
  · exact Fin.ext (Nat.succ.inj h)
  · cases hv
  · rw [hdinode n hn.1] at h0
    have htype := hn.2
    rw [hdinode n hn.1] at htype
    split at h0
    · exact absurd h0 (by decide)
    · next hne =>
      rw [if_neg hne] at htype
      split at h0
      · exact absurd h0 (by decide)
      · next hno =>
        rw [if_neg hno] at htype
        exact absurd rfl htype
  · obtain rfl := hdir d hd htype
    rw [hasEntry_iff, hlen] at hk
    have hnames : ∀ k < 32, direntInum (entry (data .mkfs (manyFiles 0) ROOTINO) k) < 52 := by
      decide +kernel
    have hbelow := hnames k hk
    rw [← hdata] at hbelow
    exact hmem _ (Nat.pos_of_ne_zero hlive) hbelow
  · rw [hdir d hd htype, hlen]
    decide

/-- A file in the cache is found though the cache is full. -/
theorem path_resolution_cached_file :
    ∃ r s', (namei .mkfs 0 (bytesOf "/../g")).run fullCache = .ok r s' ∧
      Returned .mkfs fullCache (some 2) r s' := by
  obtain ⟨helements, hreturns, hpanics, -⟩ := path_resolution fullCache_sound (bytesOf "/../g")
  have hexec : ((namei .mkfs 0 (bytesOf "/../g")).run fullCache).returns (fun _ _ => true) = true := by
    decide +kernel
  have hroom : Room .mkfs fullCache 0 false (bytesOf "/../g") := by
    by_contra hno
    rw [hpanics hno] at hexec
    cases hexec
  obtain ⟨r, s', hrun, hret⟩ := hreturns hroom
  have hruns : runs (bytesOf "/../g") = [bytesOf "..", bytesOf "g"] := by
    rw [← helements 6 (by decide)]
    decide
  have hwalk : walk .mkfs fullCache.disk ROOTINO [bytesOf "..", bytesOf "g"] = some 2 := by
    decide +kernel
  rw [hruns, show start fullCache 0 (bytesOf "/../g") = some ROOTINO from rfl, Option.bind_some,
    hwalk] at hret
  exact ⟨r, s', hrun, hret⟩

/-- In a transaction, with the links of the directory in inode 2 forgotten. -/
def forgotten (s : FsState) : FsState :=
  { s with
    disk := setDinode .mkfs s.disk 2 { dinode .mkfs s.disk 2 with nlink := 0 }
    outstanding := 1 }

/-- Without room for the next inode `namei` panics. On a disk with a directory
    that has no links, the walk frees the directory as it leaves it. -/
theorem path_resolution_fails :
    (Sound .mkfs 0 fullCache ∧ (namei .mkfs 0 (bytesOf "/f")).run fullCache = .panic "iget: no inodes") ∧
    ∃ s, Volume .mkfs s.disk ∧ NamesAllocated .mkfs s.disk ∧
      (namei .mkfs 0 (bytesOf "/d/../d/x")).run s = .panic "ilock: no type" := by
  constructor
  · refine ⟨fullCache_sound, ?_⟩
    exact Outcome.of_panics (by decide +kernel)
  · have hexec : ((syscall .mkfs 0 (.mkdir (some (bytesOf "/d")))).run (boot rootImage {0})).returns
        (fun _ s => decide (∀ d : Nat, d < 200 → d = 1 ∨ d = 2 ∨ (dinode .mkfs s.disk d).type = 0) &&
            decide ((dinode .mkfs s.disk 1).type ≠ 0 ∧ (dinode .mkfs s.disk 2).type ≠ 0) &&
            decide (∀ k : Nat, k < 32 → direntInum (entry (data .mkfs s.disk 1) k) < 3) &&
            decide (∀ k : Nat, k < 32 → direntInum (entry (data .mkfs s.disk 2) k) < 3) &&
            decide (32 ≥ (data .mkfs s.disk 1).length / DIRENT ∧ 32 ≥ (data .mkfs s.disk 2).length / DIRENT) &&
            ((namei .mkfs 0 (bytesOf "/d/../d/x")).run (forgotten s)).panics "ilock: no type") = true := by
      decide +kernel
    obtain ⟨r, s, hrun, hexec⟩ := Outcome.of_returns hexec
    simp only [Bool.and_eq_true, decide_eq_true_eq] at hexec
    obtain ⟨⟨⟨⟨⟨hfew, h1, h2⟩, hnames1⟩, hnames2⟩, hlen1, hlen2⟩, hpanic⟩ := hexec
    have hset := (Settled.syscall (boot_coh volume_rootImage (by decide) {0}) 0
      (.mkdir (some (bytesOf "/d")))).of_ok hrun
    obtain ⟨htouch, hdata, -⟩ := hset.vol.setFields
      (d := { dinode .mkfs s.disk 2 with nlink := 0 }) ⟨by decide, h2⟩ rfl rfl rfl
    refine ⟨forgotten s, htouch.volume, fun d hd _ k hk hlive => ?_, ?_⟩
    · -- all entries name one of the two directories
      have hin : ∀ n, 1 ≤ n → n < 3 → n ∈ inodes .mkfs (forgotten s).disk := by
        intro n hpos hlt
        refine ⟨show n < 200 by omega, ?_⟩
        show (dinode .mkfs (setDinode .mkfs s.disk 2 _) n).type ≠ 0
        by_cases hn : n = 2
        · subst hn
          rw [dinode_setDinode_self]
          exact h2
        · obtain rfl : n = 1 := by omega
          rw [dinode_setDinode_ne _ hn]
          exact h1
      have hd12 : d = 1 ∨ d = 2 := by
        by_contra hno
        push Not at hno
        obtain rfl | rfl | h0 := hfew d hd.1
        · exact hno.1 rfl
        · exact hno.2 rfl
        · refine hd.2 ?_
          show (dinode .mkfs (setDinode .mkfs s.disk 2 _) d).type = 0
          rw [dinode_setDinode_ne _ hno.2]
          exact h0
      have hlt : direntInum (entry (data .mkfs (forgotten s).disk d) k) < 3 := by
        obtain rfl | rfl := hd12
        · have hsame : data .mkfs (forgotten s).disk 1 = data .mkfs s.disk 1 :=
            htouch.data 1 ⟨by decide, h1⟩ (by decide)
          rw [hsame, hasEntry_iff] at hk
          rw [hsame]
          exact hnames1 k (by omega)
        · have hsame : data .mkfs (forgotten s).disk 2 = data .mkfs s.disk 2 := hdata
          rw [hsame, hasEntry_iff] at hk
          rw [hsame]
          exact hnames2 k (by omega)
      exact hin _ (Nat.pos_of_ne_zero hlive) hlt
    · exact Outcome.of_panics hpanic

end Xv6.Fs
