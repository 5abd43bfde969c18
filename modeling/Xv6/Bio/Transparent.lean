import Xv6.Bio.Structure

/-! # The buffer cache is transparent

    A client that changes a buffer only while it holds it, and writes it back
    or logs it before it lets go of it, sees through the cache a store of
    blocks: `bread` returns what was last written to the block, whatever has
    been cached and evicted in between.

    The store is `written`, a function of the events alone. The invariant
    relates it to the cache: a valid buffer that its holder is not changing
    shows the contents of the store, and so does the disk for every block of
    which no buffer is dirty.
-/

namespace Xv6.Bio

open Circle Function

/-! ## The store and its clients -/

/-- The store after an event. -/
def Event.write (m : Nat → Nat → Block) : Event → Nat → Nat → Block
  | .bwrite _ _ dev blockno data => fun d k => if d = dev ∧ k = blockno then data else m d k
  | .log_write _ _ dev blockno data => fun d k => if d = dev ∧ k = blockno then data else m d k
  | _ => m

/-- What was last written to each block; `m` are the contents at the start. -/
def written (m : Nat → Nat → Block) (es : List Event) : Nat → Nat → Block :=
  es.foldl Event.write m

/-- The holder of `b` has read it. -/
def State.Read (s : State) (b : BufId) : Prop := s.phase b = .clean ∨ s.phase b = .changed

/-- Buffers are obtained with `bread`, are changed and logged by their holder, and
    are written or logged after a change. -/
def Disciplined (s : State) : Event → Prop
  | .store p b _ => (s.cache.buf b).lock = some p ∧ s.Read b
  | .bwrite _ b _ _ _ => s.Read b
  | .log_write p b _ _ _ => (s.cache.buf b).lock = some p ∧ s.Read b
  | .unlock _ b => s.phase b = .clean
  | _ => True

/-! ## The invariant -/

/-- The cache and the disk show the store `m`. -/
structure Shows (s : State) (m : Nat → Nat → Block) : Prop where
  wf : ∃ l, Wf s l
  waits : ∀ p b dev blockno, s.pc p = .waiting b dev blockno → (s.cache.buf b).IsFor dev blockno
  unread : ∀ b dev blockno, (s.cache.buf b).lock ≠ none → s.phase b = .unread dev blockno →
    (s.cache.buf b).IsFor dev blockno
  read : ∀ b, (s.cache.buf b).lock ≠ none → s.Read b → (s.cache.buf b).valid = true
  changed : ∀ b, s.phase b = .changed → (s.cache.buf b).lock ≠ none
  valid : ∀ b, (s.cache.buf b).dirty = true → (s.cache.buf b).valid = true
  data : ∀ b, (s.cache.buf b).valid = true → s.phase b ≠ .changed →
    (s.cache.buf b).data = m (s.cache.buf b).dev (s.cache.buf b).blockno
  disk : ∀ dev blockno, (∀ b, (s.cache.buf b).IsFor dev blockno → (s.cache.buf b).dirty = false) →
    s.cache.disk dev blockno = m dev blockno

variable {drv : Driver} {s s' : State} {m : Nat → Nat → Block} {dev blockno : Nat} {p : Pid}
  {b : BufId}

/-- Two valid or dirty buffers are copies of different blocks. -/
theorem Shows.unique (h : Shows s m) {a b : BufId} (ha : (s.cache.buf a).Active)
    (hb : (s.cache.buf b).Active) (hda : (s.cache.buf a).IsFor dev blockno)
    (hdb : (s.cache.buf b).IsFor dev blockno) : a = b := by
  obtain ⟨l, hwf⟩ := h.wf
  exact hwf.same_block (hwf.handed_of_active ha) (hwf.handed_of_active hb)
    ⟨hda.1.trans hdb.1.symm, hda.2.trans hdb.2.symm⟩

/-- What has to be shown of the one buffer an event is about. -/
structure ShowsAt (s : State) (m : Nat → Nat → Block) (b : BufId) : Prop where
  unread : ∀ dev blockno, (s.cache.buf b).lock ≠ none → s.phase b = .unread dev blockno →
    (s.cache.buf b).IsFor dev blockno
  read : (s.cache.buf b).lock ≠ none → s.Read b → (s.cache.buf b).valid = true
  changed : s.phase b = .changed → (s.cache.buf b).lock ≠ none
  valid : (s.cache.buf b).dirty = true → (s.cache.buf b).valid = true
  data : (s.cache.buf b).valid = true → s.phase b ≠ .changed →
    (s.cache.buf b).data = m (s.cache.buf b).dev (s.cache.buf b).blockno

theorem Shows.at (h : Shows s m) (b : BufId) : ShowsAt s m b :=
  ⟨h.unread b, h.read b, h.changed b, h.valid b, h.data b⟩

/-- Events concern one buffer; the store keeps what it has for the others. -/
theorem Shows.change {m' : Nat → Nat → Block} (h : Shows s m) (hwf : ∃ l, Wf s' l)
    (hbuf : ∀ x, x ≠ b → s'.cache.buf x = s.cache.buf x)
    (hphase : ∀ x, x ≠ b → s'.phase x = s.phase x)
    (hstore : ∀ x, x ≠ b → (s.cache.buf x).valid = true →
      m' (s.cache.buf x).dev (s.cache.buf x).blockno = m (s.cache.buf x).dev (s.cache.buf x).blockno)
    (hwaits : ∀ p x dev blockno, s'.pc p = .waiting x dev blockno →
      (s'.cache.buf x).IsFor dev blockno) (hat : ShowsAt s' m' b)
    (hdisk : ∀ dev blockno,
      (((s.cache.buf b).IsFor dev blockno → (s.cache.buf b).dirty = false) →
        ∀ x, (s.cache.buf x).IsFor dev blockno → (s.cache.buf x).dirty = false) →
      ((s'.cache.buf b).IsFor dev blockno → (s'.cache.buf b).dirty = false) →
      s'.cache.disk dev blockno = m' dev blockno) :
    Shows s' m' := by
  have hread : ∀ x, x ≠ b → s'.Read x → s.Read x := by
    intro x hx hr
    unfold State.Read at hr ⊢
    rw [hphase x hx] at hr
    exact hr
  refine ⟨hwf, hwaits, fun x => ?_, fun x => ?_, fun x => ?_, fun x => ?_, fun x => ?_,
    fun d k hclean => hdisk d k (fun hb x hx => ?_) (hclean b)⟩
  · by_cases hx : x = b
    · rw [hx]; exact hat.unread
    · rw [hbuf x hx, hphase x hx]; exact h.unread x
  · by_cases hx : x = b
    · rw [hx]; exact hat.read
    · intro hl hr
      rw [hbuf x hx] at hl ⊢
      exact h.read x hl (hread x hx hr)
  · by_cases hx : x = b
    · rw [hx]; exact hat.changed
    · rw [hbuf x hx, hphase x hx]; exact h.changed x
  · by_cases hx : x = b
    · rw [hx]; exact hat.valid
    · rw [hbuf x hx]; exact h.valid x
  · by_cases hx : x = b
    · rw [hx]; exact hat.data
    · intro hv hc
      rw [hbuf x hx] at hv ⊢
      rw [hphase x hx] at hc
      rw [hstore x hx hv]
      exact h.data x hv hc
  · by_cases hxb : x = b
    · subst hxb
      exact hb hx
    · rw [← hbuf x hxb] at hx ⊢
      exact hclean x hx

/-- Events that keep the names of the buffers keep what the processes wait for. -/
theorem Shows.waits_of_name (h : Shows s m)
    (hpc : ∀ p x dev blockno, s'.pc p = .waiting x dev blockno → s.pc p = .waiting x dev blockno)
    (hname : ∀ x, (s'.cache.buf x).IsFor (s.cache.buf x).dev (s.cache.buf x).blockno)
    (p : Pid) (x : BufId) (dev blockno : Nat) (hp : s'.pc p = .waiting x dev blockno) :
    (s'.cache.buf x).IsFor dev blockno := by
  obtain ⟨hd, hk⟩ := h.waits p x dev blockno (hpc p x dev blockno hp)
  obtain ⟨hd', hk'⟩ := hname x
  exact ⟨hd'.trans hd, hk'.trans hk⟩

/-- A process that has moved on does not wait. -/
theorem waiting_of_update {pc : Pc} (hpc : ∀ x d k, pc ≠ .waiting x d k) (q : Pid) (x : BufId)
    (dev blockno : Nat) (h : update s.pc p pc q = .waiting x dev blockno) :
    s.pc q = .waiting x dev blockno := by
  by_cases hq : q = p
  · rw [hq, update_self] at h
    exact absurd h (hpc x dev blockno)
  · rw [update_of_ne hq] at h
    exact h

/-- The names of the buffers when one of them is changed. -/
theorem name_setBuf (c : Bcache) (b : BufId) (f : Buf → Buf)
    (hf : (f (c.buf b)).IsFor (c.buf b).dev (c.buf b).blockno) (x : BufId) :
    ((c.setBuf b f).buf x).IsFor (c.buf x).dev (c.buf x).blockno := by
  by_cases hx : x = b
  · rw [hx, Bcache.setBuf_self]
    exact hf
  · rw [c.setBuf_ne b f hx]
    exact ⟨rfl, rfl⟩

/-- A buffer without references is not waited for and not locked. -/
theorem Wf.alone {l : List BufId} (h : Wf s l) (hb : (s.cache.buf b).refcnt = 0) :
    (s.cache.buf b).lock = none ∧ ∀ p dev blockno, s.pc p ≠ .waiting b dev blockno := by
  refine ⟨by_contra fun hl => h.ref_of_lock hl hb, fun p dev blockno hp => ?_⟩
  have hone : (s.pc p).on b = 1 := by rw [hp, Pc.on_waiting, if_pos rfl]
  exact h.ref_of_pc hone hb

/-! ## The steps -/

section

variable (h : Shows s m)
include h

theorem Shows.bget (hnext : s.next drv (.bget p dev blockno b) = some s') : Shows s' m := by
  obtain ⟨l, hwf⟩ := h.wf
  have hwf' := hwf.step hnext
  obtain ⟨hp, c, hc, rfl⟩ := of_guarded_ends hnext
  rcases hwf.bget_cases hc with ⟨hhit, rfl⟩ | ⟨hrec, rfl⟩
  · -- a copy is found
    refine h.change (b := b) hwf' (fun x hx => update_of_ne hx _ _) (fun _ _ => rfl)
      (fun _ _ _ => rfl) (fun q x d k hq => ?_) ?_ fun d k hclean hself => ?_
    · by_cases hqp : q = p
      · simp only [hqp, update_self, Pc.waiting.injEq] at hq
        obtain ⟨rfl, rfl, rfl⟩ := hq
        simpa [Buf.IsFor] using hhit.found
      · simp only [update_of_ne hqp] at hq
        obtain ⟨hd, hk⟩ := h.waits q x d k hq
        obtain ⟨hd', hk'⟩ := name_setBuf s.cache b (fun x => { x with refcnt := x.refcnt + 1 })
          ⟨rfl, rfl⟩ x
        exact ⟨hd'.trans hd, hk'.trans hk⟩
    · obtain ⟨h1, h2, h3, h4, h5⟩ := h.at b
      refine ⟨?_, ?_, ?_, ?_, ?_⟩
      · simpa [Buf.IsFor] using h1
      · simpa [State.Read] using h2
      · simpa using h3
      · simpa using h4
      · simpa using h5
    · exact h.disk d k (hclean fun hb => by simpa [Buf.IsFor, hb.1, hb.2] using hself)
  · -- a buffer is recycled: nobody has anything to do with it, and it is not dirty
    obtain ⟨hfree, hnot⟩ := hwf.alone hrec.unused.1
    refine h.change (b := b) hwf' (fun x hx => update_of_ne hx _ _) (fun _ _ => rfl)
      (fun _ _ _ => rfl) (fun q x d k hq => ?_) ?_ fun d k hclean hself => ?_
    · by_cases hqp : q = p
      · simp only [hqp, update_self, Pc.waiting.injEq] at hq
        obtain ⟨rfl, rfl, rfl⟩ := hq
        simp [Buf.IsFor]
      · simp only [update_of_ne hqp] at hq
        have hxb : x ≠ b := by
          rintro rfl
          exact hnot q d k hq
        simp only [s.cache.setBuf_ne b _ hxb]
        exact h.waits q x d k hq
    · refine ⟨?_, ?_, ?_, ?_, ?_⟩
      · simp [hfree]
      · simp [hfree]
      · intro hch
        exact absurd hfree (h.changed b hch)
      · simp
      · simp
    · exact h.disk d k (hclean fun _ => hrec.unused.2)

theorem Shows.lock (hnext : s.next drv (.lock p) = some s') : Shows s' m := by
  obtain ⟨l, hwf⟩ := h.wf
  have hwf' := hwf.step hnext
  simp only [State.next] at hnext
  split at hnext
  case h_2 => cases hnext
  case h_1 b dev blockno hp =>
    obtain ⟨c, hc, rfl⟩ := Option.map_eq_some_iff.mp hnext
    obtain ⟨hfree, rfl⟩ := acquiresleep_cases (ends_eq_some.mp hc)
    have hname := name_setBuf s.cache b (fun x => { x with lock := some p }) ⟨rfl, rfl⟩
    have hnot : s.phase b ≠ .changed := fun hch => h.changed b hch hfree
    refine h.change (b := b) hwf' (fun x hx => update_of_ne hx _ _)
      (fun x hx => update_of_ne hx _ _) (fun _ _ _ => rfl)
      (h.waits_of_name (waiting_of_update (by simp)) hname) ?_ fun d k hclean hself => ?_
    · refine ⟨fun d k _ hph => ?_, fun _ hr => ?_, fun hch => ?_, ?_, fun hv _ => ?_⟩
      · simp only [update_self, Phase.unread.injEq] at hph
        obtain ⟨rfl, rfl⟩ := hph
        simpa [Buf.IsFor] using h.waits p b dev blockno hp
      · simp [State.Read] at hr
      · simp at hch
      · simpa using h.valid b
      · simp only [Bcache.setBuf_self] at hv ⊢
        exact h.data b hv hnot
    · exact h.disk d k (hclean fun hb => by simpa [Buf.IsFor, hb.1, hb.2] using hself)

/-- `bread` returns the contents of the store. -/
theorem Shows.bread {data : Block} (hnext : s.next drv (.bread p b dev blockno data) = some s') :
    data = m dev blockno ∧ Shows s' m := by
  obtain ⟨l, hwf⟩ := h.wf
  have hwf' := hwf.step hnext
  obtain ⟨hp, hnext⟩ := Option.ite_none_right_eq_some.mp hnext
  obtain ⟨_, hlock, hphase⟩ := hp
  obtain ⟨c, hc, hs'⟩ := Option.bind_eq_some_iff.mp hnext
  have hfor := h.unread b dev blockno (by rw [hlock]; simp) hphase
  have hkeep : s.phase b ≠ .changed := by rw [hphase]; simp
  obtain ⟨hdata, hs'⟩ := Option.ite_none_right_eq_some.mp hs'
  cases hs'
  rcases bread_fill_cases (ends_eq_some.mp hc) with ⟨hv, rfl⟩ | ⟨hv, hrw⟩
  · -- the buffer is valid already
    have hm := h.data b hv hkeep
    refine ⟨by rw [← hdata, hm, hfor.1, hfor.2], ?_⟩
    refine h.change (b := b) hwf' (fun _ _ => rfl) (fun x hx => update_of_ne hx _ _)
      (fun _ _ _ => rfl) h.waits ?_ fun d k hclean hself => h.disk d k (hclean hself)
    exact ⟨fun d k _ hph => by simp at hph, fun _ _ => hv, fun hch => by simp at hch, h.valid b,
      fun _ _ => hm⟩
  · -- it is read from the disk, which is up to date
    obtain ⟨_, hcase⟩ := iderw_cases hrw
    rcases hcase with ⟨hd, _⟩ | ⟨hd, _, rfl⟩
    · rw [h.valid b hd] at hv
      cases hv
    · have href : (s.cache.buf b).Active := Or.inl (hwf.ref_of_lock (by rw [hlock]; simp))
      have hdisk : s.cache.disk (s.cache.buf b).dev (s.cache.buf b).blockno =
          m (s.cache.buf b).dev (s.cache.buf b).blockno := by
        refine h.disk _ _ fun x hx => ?_
        cases hdx : (s.cache.buf x).dirty with
        | false => rfl
        | true =>
          have hxb := h.unique (Or.inr (Or.inr hdx)) href hx ⟨rfl, rfl⟩
          rw [hxb, hd] at hdx
          cases hdx
      simp only [Bcache.setBuf_self] at hdata
      refine ⟨by rw [← hdata, hdisk, hfor.1, hfor.2], ?_⟩
      refine h.change (b := b) hwf' (fun x hx => update_of_ne hx _ _)
        (fun x hx => update_of_ne hx _ _) (fun _ _ _ => rfl)
        (h.waits_of_name (fun _ _ _ _ hq => hq) (name_setBuf s.cache b (fun x =>
          { x with data := s.cache.disk x.dev x.blockno, valid := true }) ⟨rfl, rfl⟩)) ?_
        fun d k hclean hself => ?_
      · refine ⟨fun d k _ hph => by simp at hph, fun _ _ => by simp, fun hch => by simp at hch,
          fun _ => by simp, fun _ _ => ?_⟩
        simpa using hdisk
      · exact h.disk d k (hclean fun _ => hd)

theorem Shows.store {data : Block} (hdisc : Disciplined s (.store p b data))
    (hnext : s.next drv (.store p b data) = some s') : Shows s' m := by
  obtain ⟨l, hwf⟩ := h.wf
  have hwf' := hwf.step hnext
  obtain ⟨hlock, hread⟩ := hdisc
  have hl : (s.cache.buf b).lock ≠ none := by rw [hlock]; simp
  obtain ⟨_, hnext⟩ := Option.ite_none_right_eq_some.mp hnext
  cases hnext
  refine h.change (b := b) hwf' (fun x hx => update_of_ne hx _ _)
    (fun x hx => update_of_ne hx _ _) (fun _ _ _ => rfl)
    (h.waits_of_name (fun _ _ _ _ hq => hq)
      (name_setBuf s.cache b (fun x => { x with data := data }) ⟨rfl, rfl⟩)) ?_
    fun d k hclean hself => ?_
  · refine ⟨fun d k _ hph => by simp at hph, fun _ _ => ?_, fun _ => by simpa using hl, fun _ => ?_,
      fun _ hch => by simp at hch⟩
    · simpa using h.read b hl hread
    · simpa using h.read b hl hread
  · exact h.disk d k (hclean fun hb => by simpa [Buf.IsFor, hb.1, hb.2] using hself)

/-- A write of buffer `b` changes the store for no other valid buffer. -/
theorem Shows.write_other {b x : BufId} {data : Block} (hb : (s.cache.buf b).Active) (hx : x ≠ b)
    (hv : (s.cache.buf x).valid = true) :
    (if (s.cache.buf x).dev = (s.cache.buf b).dev ∧ (s.cache.buf x).blockno = (s.cache.buf b).blockno
      then data else m (s.cache.buf x).dev (s.cache.buf x).blockno) =
      m (s.cache.buf x).dev (s.cache.buf x).blockno := by
  refine if_neg fun heq => hx ?_
  exact h.unique (Or.inr (Or.inl hv)) hb heq ⟨rfl, rfl⟩

theorem Shows.bwrite {data : Block} (hnext : s.next drv (.bwrite p b dev blockno data) = some s') :
    Shows s' (Event.write m (.bwrite p b dev blockno data)) := by
  obtain ⟨l, hwf⟩ := h.wf
  have hwf' := hwf.step hnext
  obtain ⟨hp, c, hc, rfl⟩ := of_guarded_ends hnext
  obtain ⟨hlock, rfl⟩ := bwrite_cases hc
  have hl : (s.cache.buf b).lock ≠ none := by rw [hlock]; simp
  have hshow := hp.2
  simp only [Bcache.shows, decide_eq_true_eq] at hshow
  obtain ⟨rfl, rfl, rfl⟩ := hshow
  have href : (s.cache.buf b).Active := Or.inl (hwf.ref_of_lock hl)
  refine h.change (b := b) hwf' (fun x hx => update_of_ne hx _ _)
    (fun x hx => update_of_ne hx _ _) (fun x hx hv => h.write_other href hx hv)
    (h.waits_of_name (fun _ _ _ _ hq => hq)
      (name_setBuf s.cache b (fun x => { x with dirty := false, valid := true }) ⟨rfl, rfl⟩)) ?_
    fun d k hclean hself => ?_
  · refine ⟨fun d k _ hph => by simp at hph, fun _ _ => by simp [Bcache.setBuf],
      fun hch => by simp at hch, fun _ => by simp [Bcache.setBuf], fun _ _ => ?_⟩
    simp [Bcache.setBuf, Event.write]
  · -- the disk and the store change in the same way
    show (if d = (s.cache.buf b).dev ∧ k = (s.cache.buf b).blockno then (s.cache.buf b).data
      else s.cache.disk d k) = if d = (s.cache.buf b).dev ∧ k = (s.cache.buf b).blockno then
      (s.cache.buf b).data else m d k
    by_cases hdk : d = (s.cache.buf b).dev ∧ k = (s.cache.buf b).blockno
    · rw [if_pos hdk, if_pos hdk]
    · rw [if_neg hdk, if_neg hdk]
      exact h.disk d k (hclean fun hb => absurd ⟨hb.1.symm, hb.2.symm⟩ hdk)

theorem Shows.log_write {data : Block} (hdisc : Disciplined s (.log_write p b dev blockno data))
    (hnext : s.next drv (.log_write p b dev blockno data) = some s') :
    Shows s' (Event.write m (.log_write p b dev blockno data)) := by
  obtain ⟨l, hwf⟩ := h.wf
  have hwf' := hwf.step hnext
  obtain ⟨hlock, hread⟩ := hdisc
  have hl : (s.cache.buf b).lock ≠ none := by rw [hlock]; simp
  have hv := h.read b hl hread
  obtain ⟨hp, c, hc, rfl⟩ := of_guarded_ends hnext
  cases hc
  have hshow := hp.2.2
  simp only [Bcache.shows, decide_eq_true_eq] at hshow
  obtain ⟨rfl, rfl, rfl⟩ := hshow
  have href : (s.cache.buf b).Active := Or.inl (hwf.ref_of_lock hl)
  refine h.change (b := b) hwf' (fun x hx => update_of_ne hx _ _)
    (fun x hx => update_of_ne hx _ _) (fun x hx hvx => h.write_other href hx hvx)
    (h.waits_of_name (fun _ _ _ _ hq => hq)
      (name_setBuf s.cache b (fun x => { x with dirty := true }) ⟨rfl, rfl⟩)) ?_
    fun d k hclean hself => ?_
  · refine ⟨fun d k _ hph => by simp at hph, fun _ _ => by simpa using hv,
      fun hch => by simp at hch, fun _ => by simpa using hv, fun _ _ => ?_⟩
    simp [Event.write]
  · -- the block that was logged has a dirty buffer
    have hdk : ¬ (d = (s.cache.buf b).dev ∧ k = (s.cache.buf b).blockno) := by
      rintro ⟨rfl, rfl⟩
      have := hself (by simp [Buf.IsFor])
      simp at this
    show s.cache.disk d k = if d = (s.cache.buf b).dev ∧ k = (s.cache.buf b).blockno then
      (s.cache.buf b).data else m d k
    rw [if_neg hdk]
    exact h.disk d k (hclean fun hb => absurd ⟨hb.1.symm, hb.2.symm⟩ hdk)

theorem Shows.unlock (hdisc : Disciplined s (.unlock p b))
    (hnext : s.next drv (.unlock p b) = some s') : Shows s' m := by
  obtain ⟨l, hwf⟩ := h.wf
  have hwf' := hwf.step hnext
  have hclean : s.phase b = .clean := hdisc
  obtain ⟨hp, c, hc, rfl⟩ := of_guarded_ends hnext
  obtain ⟨hlock, rfl⟩ := brelse_unlock_cases hc
  refine h.change (b := b) hwf' (fun x hx => update_of_ne hx _ _) (fun _ _ => rfl)
    (fun _ _ _ => rfl) (h.waits_of_name (waiting_of_update (by simp))
      (name_setBuf s.cache b (fun x => { x with lock := none }) ⟨rfl, rfl⟩)) ?_ fun d k hdirty hself => ?_
  · refine ⟨fun d k hl => by simp at hl, fun hl => by simp at hl, fun hch => ?_, ?_, fun hv hch => ?_⟩
    · have hph : s.phase b = .changed := hch
      rw [hclean] at hph
      cases hph
    · simpa using h.valid b
    · simp only [Bcache.setBuf_self] at hv ⊢
      exact h.data b hv hch
  · exact h.disk d k (hdirty fun hb => by simpa [Buf.IsFor, hb.1, hb.2] using hself)

theorem Shows.brelse (hnext : s.next drv (.brelse p) = some s') : Shows s' m := by
  obtain ⟨l, hwf⟩ := h.wf
  have hwf' := hwf.step hnext
  simp only [State.next] at hnext
  split at hnext
  case h_2 => cases hnext
  case h_1 b hp =>
    obtain ⟨c, hc, hs'⟩ := Option.map_eq_some_iff.mp hnext
    have hrel := ends_eq_some.mp hc
    simp only [Bio.brelse, Op.modify, Outcome.ok.injEq, true_and] at hrel
    -- the list and the count are all that changes
    have hbufs : c.buf = (s.cache.setBuf b fun x => { x with refcnt := x.refcnt - 1 }).buf := by
      rw [← hrel]
      split
      · rfl
      · rfl
    have hdisk : c.disk = s.cache.disk := by
      rw [← hrel]
      split
      · rfl
      · rfl
    have hcache : s'.cache = c := by
      rw [← hs']
      split
      · rfl
      · rfl
    have hpc : s'.pc = update s.pc p .idle := by
      rw [← hs']
      split
      · rfl
      · rfl
    have hphase : s'.phase = s.phase := by
      rw [← hs']
      split
      · rfl
      · rfl
    have hsame : s'.cache.buf b = { s.cache.buf b with refcnt := (s.cache.buf b).refcnt - 1 } := by
      rw [hcache, hbufs, Bcache.setBuf_self]
    have hne : ∀ x, x ≠ b → s'.cache.buf x = s.cache.buf x := by
      intro x hx
      rw [hcache, hbufs, s.cache.setBuf_ne b _ hx]
    refine h.change (b := b) hwf' hne (fun _ _ => by rw [hphase]) (fun _ _ _ => rfl)
      (h.waits_of_name (fun q x d k hq => waiting_of_update (by simp) q x d k (hpc ▸ hq)) fun x => ?_) ?_
      fun d k hclean hself => ?_
    · by_cases hx : x = b
      · rw [hx, hsame]; exact ⟨rfl, rfl⟩
      · rw [hne x hx]; exact ⟨rfl, rfl⟩
    · obtain ⟨h1, h2, h3, h4, h5⟩ := h.at b
      unfold State.Read at h2
      refine ⟨?_, ?_, ?_, ?_, ?_⟩
      · rw [hsame, hphase]; exact h1
      · unfold State.Read
        rw [hsame, hphase]; exact h2
      · rw [hsame, hphase]; exact h3
      · rw [hsame]; exact h4
      · rw [hsame, hphase]; exact h5
    · rw [hsame] at hself
      rw [hcache, hdisk]
      exact h.disk d k (hclean hself)

/-- Every event of a disciplined client keeps the cache in agreement with the store. -/
theorem Shows.step {e : Event} (hdisc : Disciplined s e) (hnext : s.next drv e = some s') :
    Shows s' (Event.write m e) := by
  cases e with
  | bget p dev blockno b => exact h.bget hnext
  | lock p => exact h.lock hnext
  | bread p b dev blockno data => exact (h.bread hnext).2
  | store p b data => exact h.store hdisc hnext
  | bwrite p b dev blockno data => exact h.bwrite hnext
  | log_write p b dev blockno data => exact h.log_write hdisc hnext
  | unlock p b => exact h.unlock hdisc hnext
  | brelse p => exact h.brelse hnext

end

/-! ## Whole runs -/

theorem Initial.shows (h : Initial s) : Shows s s.cache.disk := by
  refine ⟨⟨_, h.wf⟩, fun p b d k hp => ?_, fun b d k hl => ?_, fun b hl => ?_, fun b hch => ?_,
    fun b hd => ?_, fun b hv => ?_, fun d k _ => rfl⟩
  · rw [h.pc p] at hp; cases hp
  · exact absurd (h.buf b).2.2.2.2.1 hl
  · exact absurd (h.buf b).2.2.2.2.1 hl
  · rw [h.phase b] at hch; cases hch
  · rw [(h.buf b).2.1] at hd; cases hd
  · rw [(h.buf b).1] at hv; cases hv

theorem shows_of_run {s₀ : State} {es : List Event} (h₀ : Initial s₀)
    (hrun : LTS.Run ((bioSystem drv).restrict Disciplined) s₀ es s) :
    Shows s (written s₀.cache.disk es) := by
  induction hrun with
  | nil => exact h₀.shows
  | snoc e _ hnext ih =>
    obtain ⟨hdisc, hnext⟩ := LTS.restrict_next.mp hnext
    unfold written
    rw [List.foldl_append]
    exact ih.step hdisc hnext

/-- A process that has the lock of the buffer for its `bread` gets the contents of
    the store, if the driver accepts the request. -/
theorem Shows.bread_returns (h : Shows s m) (hp : s.pc p = .idle)
    (hlock : (s.cache.buf b).lock = some p) (hphase : s.phase b = .unread dev blockno)
    (hr : drv.refuse dev blockno = none) :
    ∃ s', s.next drv (.bread p b dev blockno (m dev blockno)) = some s' := by
  obtain ⟨hd, hk⟩ := h.unread b dev blockno (by rw [hlock]; simp) hphase
  have hfill : ∃ c, bread_fill drv p b s.cache = .ok () c :=
    bread_fill_returns hlock (by rw [hd, hk]; exact hr)
  obtain ⟨c, hc⟩ := hfill
  have hret : ∃ s', s.next drv (.bread p b dev blockno (c.buf b).data) = some s' := by
    refine ⟨{ s with cache := c, phase := update s.phase b .clean }, ?_⟩
    simp only [State.next]
    rw [if_pos ⟨hp, hlock, hphase⟩, ends_eq_some.mpr hc, Option.bind_some, if_pos rfl]
  obtain ⟨s', hs'⟩ := hret
  refine ⟨s', ?_⟩
  rw [← (h.bread hs').1]
  exact hs'

/-- In every sequence of calls of a disciplined client, `bread` returns what was
    last written to the block, and it does return once it has the buffer's lock
    and the disk has the block. A buffer that is given to another block is not
    dirty, and a block whose contents are not on disk has a dirty buffer. -/
theorem buffer_cache_transparent (drv : Driver) (s₀ s : State) (es : List Event)
    (h₀ : Initial s₀) (hrun : LTS.Run ((bioSystem drv).restrict Disciplined) s₀ es s) :
    (∀ p b dev blockno data s', s.next drv (.bread p b dev blockno data) = some s' →
      data = written s₀.cache.disk es dev blockno) ∧
    (∀ p b dev blockno, s.pc p = .idle → (s.cache.buf b).lock = some p →
      s.phase b = .unread dev blockno → drv.refuse dev blockno = none →
      ∃ s', s.next drv (.bread p b dev blockno (written s₀.cache.disk es dev blockno)) = some s') ∧
    (∀ p dev blockno b s', s.next drv (.bget p dev blockno b) = some s' →
      ¬ (s.cache.buf b).IsFor dev blockno → (s.cache.buf b).dirty = false) ∧
    (∀ dev blockno, s.cache.disk dev blockno ≠ written s₀.cache.disk es dev blockno →
      ∃ b, (s.cache.buf b).IsFor dev blockno ∧ (s.cache.buf b).dirty = true ∧
        (s.phase b ≠ .changed → (s.cache.buf b).data = written s₀.cache.disk es dev blockno)) := by
  have h := shows_of_run h₀ hrun
  refine ⟨fun p b dev blockno data s' hnext => (h.bread hnext).1,
    fun p b dev blockno hp hlock hphase hr => h.bread_returns hp hlock hphase hr, ?_, ?_⟩
  · intro p dev blockno b s' hnext hother
    obtain ⟨l, hwf⟩ := h.wf
    obtain ⟨_, c, hc, _⟩ := of_guarded_ends hnext
    rcases hwf.bget_cases hc with ⟨hhit, _⟩ | ⟨hrec, _⟩
    · exact absurd hhit.found hother
    · exact hrec.unused.2
  · intro dev blockno hne
    by_contra hnone
    refine hne (h.disk dev blockno fun b hb => ?_)
    cases hd : (s.cache.buf b).dirty with
    | false => rfl
    | true =>
      refine absurd ⟨b, hb, hd, fun hch => ?_⟩ hnone
      rw [h.data b (h.valid b hd) hch, hb.1, hb.2]

instance (s : State) : (e : Event) → Decidable (Disciplined s e)
  | .bget _ _ _ _ => inferInstanceAs (Decidable True)
  | .lock _ => inferInstanceAs (Decidable True)
  | .bread _ _ _ _ _ => inferInstanceAs (Decidable True)
  | .store p b _ => inferInstanceAs (Decidable ((s.cache.buf b).lock = some p ∧
      (s.phase b = .clean ∨ s.phase b = .changed)))
  | .bwrite _ b _ _ _ => inferInstanceAs (Decidable (s.phase b = .clean ∨ s.phase b = .changed))
  | .log_write p b _ _ _ => inferInstanceAs (Decidable ((s.cache.buf b).lock = some p ∧
      (s.phase b = .clean ∨ s.phase b = .changed)))
  | .unlock _ b => inferInstanceAs (Decidable (s.phase b = .clean))
  | .brelse _ => inferInstanceAs (Decidable True)

/-- Block 5 is changed and logged; process 1 then reads the new contents, which
    are not on disk. -/
theorem buffer_cache_transparent_logged : ∃ s s', LTS.Run
      ((bioSystem (memide 1000)).restrict Disciplined) booted
      [.bget 0 1 5 0, .lock 0, .bread 0 0 1 5 0, .store 0 0 9, .log_write 0 0 1 5 9, .unlock 0 0,
        .brelse 0, .bget 1 1 5 0, .lock 1] s ∧
    s.cache.disk 1 5 = 0 ∧ s.next (memide 1000) (.bread 1 0 1 5 9) = some s' := by
  have hexec : ((bioSystem (memide 1000)).exec (fun s e => decide (Disciplined s e)) booted
      [.bget 0 1 5 0, .lock 0, .bread 0 0 1 5 0, .store 0 0 9, .log_write 0 0 1 5 9, .unlock 0 0,
        .brelse 0, .bget 1 1 5 0, .lock 1]).any (fun s => decide (s.cache.disk 1 5 = 0) &&
        decide (s.pc 1 = .idle ∧ (s.cache.buf 0).lock = some 1 ∧ s.phase 0 = .unread 1 5)) = true := by
    decide +kernel
  obtain ⟨s, hs, hend⟩ := (Option.any_eq_true _ _).mp hexec
  simp only [Bool.and_eq_true, decide_eq_true_eq] at hend
  obtain ⟨hdisk, hp, hlock, hphase⟩ := hend
  have hrun := LTS.run_of_exec hs
  simp only [decide_eq_true_eq] at hrun
  obtain ⟨_, hret, _, _⟩ := buffer_cache_transparent _ _ _ _ booted_initial hrun
  obtain ⟨s', hs'⟩ := hret 1 0 1 5 hp hlock hphase rfl
  exact ⟨s, s', hrun, hdisk, hs'⟩

end Xv6.Bio
