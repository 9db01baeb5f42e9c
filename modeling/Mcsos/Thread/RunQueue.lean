import Mcsos.Base.LinkedQueue
import Mcsos.Thread.Scheduler
import Mathlib.Data.Fintype.Card
import Mathlib.Data.List.Nodup

/-!
# The ready list as a list

What one call of the scheduler does, told by the list of the ready threads, the states of the
threads and the two threads `current` and `idle`. `Lists s q` is the invariant of the list alone:
the links give `q`, `runnable_count` is its length, and its threads are valid and `READY`.
`Core s q` adds the two threads; it does not fix the state of the current thread, which is `BLOCKED`
when `mcsos_thread_block_current` hands over to `mcsos_sched_yield`.

`runnable_count` does not wrap, as the threads in the list are different and none of them is at
address 0 (`length_lt_of_nodup`). With the current thread, which is not in the list either, there is
room for the `+ 1` of `mcsos_sched_validate` too.
-/

namespace Mcsos

namespace Sched

open LinkedQueue

variable {s s' : State} {p r x : Ptr} {q : List Ptr} {f : Thread → Thread}

/-! ## The fields that matter -/

/-- The links. -/
def State.nexts (s : State) : Ptr → Ptr := fun p ↦ (s.threads p).next

/-- The states of the threads. -/
def State.states (s : State) : Ptr → ThreadState := fun p ↦ (s.threads p).state

theorem threads_modify_self : (s.modify p f).threads p = f (s.threads p) := Function.update_self ..

theorem threads_modify_of_ne (hr : r ≠ p) : (s.modify p f).threads r = s.threads r :=
  Function.update_of_ne hr ..

theorem nexts_modify : (s.modify p f).nexts = Function.update s.nexts p (f (s.threads p)).next :=
  Function.comp_update Thread.next s.threads p _

theorem states_modify :
    (s.modify p f).states = Function.update s.states p (f (s.threads p)).state :=
  Function.comp_update Thread.state s.threads p _

theorem nexts_modify_of_eq (h : (f (s.threads p)).next = (s.threads p).next) :
    (s.modify p f).nexts = s.nexts := by
  rw [nexts_modify, h]
  exact Function.update_eq_self p s.nexts

theorem states_modify_of_eq (h : (f (s.threads p)).state = (s.threads p).state) :
    (s.modify p f).states = s.states := by
  rw [states_modify, h]
  exact Function.update_eq_self p s.states

theorem valid_modify (h : (f (s.threads p)).magic = (s.threads p).magic) :
    validThreadObject (s.modify p f) = validThreadObject s := by
  funext r
  rw [validThreadObject, validThreadObject]
  by_cases hr : r = p
  · rw [hr, threads_modify_self, h]
  · rw [threads_modify_of_ne hr]

theorem states_addSwitch : (addSwitch p s).states = s.states := states_modify_of_eq rfl

theorem valid_addSwitch : validThreadObject (addSwitch p s) = validThreadObject s :=
  valid_modify rfl

theorem ne_zero_of_valid (h : validThreadObject s p = true) : p ≠ 0 := by
  rw [validThreadObject, Bool.and_eq_true, decide_eq_true_eq] at h
  exact h.1

theorem length_lt_of_nodup (hnodup : q.Nodup) (h0 : 0 ∉ q) : q.length < 2 ^ 64 := by
  have hmap : ((0 :: q).map UInt64.toFin).Nodup :=
    (List.nodup_cons.mpr ⟨h0, hnodup⟩).map fun _ _ ↦ UInt64.toFin_inj.mp
  have hcard := hmap.length_le_card
  rw [List.length_map, List.length_cons, Fintype.card_fin, UInt64.size] at hcard
  omega

theorem toNat_add_one {n : UInt64} (h : n.toNat + 1 < 2 ^ 64) : (n + 1).toNat = n.toNat + 1 := by
  rw [UInt64.toNat_add]
  exact Nat.mod_eq_of_lt h

/-! ## The list -/

/-- The ready list is `q`. -/
structure Lists (s : State) (q : List Ptr) : Prop where
  initialized : s.sched.initialized = true
  queue : IsQueue 0 s.nexts s.sched.readyHead s.sched.readyTail q
  count : s.sched.runnableCount.toNat = q.length
  ready : ∀ p ∈ q, s.states p = .ready
  valid : ∀ p ∈ q, validThreadObject s p = true

/-- What the calls on the list leave as it is. -/
structure Keeps (s s' : State) : Prop where
  current : s'.sched.current = s.sched.current
  idle : s'.sched.idle = s.sched.idle
  valid : validThreadObject s' = validThreadObject s

namespace Lists

theorem notMem_of_state (h : Lists s q) (hp : s.states p ≠ .ready) : p ∉ q :=
  fun hmem ↦ hp (h.ready p hmem)

theorem linkTail (h : IsQueue 0 s.nexts s.sched.readyHead s.sched.readyTail q) (hp : p ∉ q)
    (h0 : p ≠ 0) (hf : (f (s.threads p)).next = 0) :
    IsQueue 0 (linkTail p (s.modify p f)).nexts (linkTail p (s.modify p f)).sched.readyHead
      (linkTail p (s.modify p f)).sched.readyTail (q ++ [p]) := by
  have hnexts : (s.modify p f).nexts = Function.update s.nexts p 0 := by rw [nexts_modify, hf]
  have hlink : ((s.modify p f).modify s.sched.readyTail fun t ↦ { t with next := p }).nexts =
      Function.update (Function.update s.nexts p 0) s.sched.readyTail p := by
    rw [nexts_modify, hnexts]
  by_cases htail : s.sched.readyTail = 0
  · obtain rfl := h.tail_eq_null.mp htail
    rw [Sched.linkTail, if_pos (show (s.modify p f).sched.readyTail = 0 from htail)]
    exact hnexts ▸ .append_nil h0
  · rw [Sched.linkTail, if_neg (show ¬(s.modify p f).sched.readyTail = 0 from htail)]
    exact hlink ▸ h.append (fun hnil ↦ htail (h.tail_eq_null.mpr hnil)) h0 hp

theorem keeps_linkTail : Keeps s (Sched.linkTail p s) ∧ (Sched.linkTail p s).states = s.states ∧
    (Sched.linkTail p s).sched.initialized = s.sched.initialized ∧
      (Sched.linkTail p s).sched.runnableCount = s.sched.runnableCount := by
  rw [Sched.linkTail]
  split
  · exact ⟨⟨rfl, rfl, rfl⟩, rfl, rfl, rfl⟩
  · exact ⟨⟨rfl, rfl, valid_modify (f := fun t ↦ { t with next := p }) rfl⟩,
      states_modify_of_eq (f := fun t ↦ { t with next := p }) rfl, rfl, rfl⟩

theorem enqueue (h : Lists s q) (hp : p ∉ q) (hvalid : validThreadObject s p = true)
    (hstate : s.states p = .new ∨ s.states p = .ready ∨ s.states p = .blocked) :
    ∃ s', mcsosSchedEnqueue p s = (.ok, s') ∧ Lists s' (q ++ [p]) ∧ Keeps s s' ∧
      s'.states = Function.update s.states p .ready := by
  rw [mcsosSchedEnqueue, if_neg (by rw [h.initialized, hvalid]; decide),
    if_neg (fun hne ↦ hstate.elim hne.1 fun hor ↦ hor.elim hne.2.1 hne.2.2)]
  have hqueue := linkTail (f := fun t ↦ { t with state := .ready, next := 0 }) h.queue hp
    (ne_zero_of_valid hvalid) rfl
  obtain ⟨hkeeps, hstates, hinit, hcount⟩ :=
    @keeps_linkTail (s.modify p fun t ↦ { t with state := .ready, next := 0 }) p
  have hkeeps' : validThreadObject (Sched.linkTail p (s.modify p fun t ↦
      { t with state := .ready, next := 0 })) = validThreadObject s :=
    hkeeps.valid.trans (valid_modify rfl)
  rw [states_modify] at hstates
  refine ⟨_, rfl, ⟨hinit.trans h.initialized, hqueue, ?_, fun r hr ↦ ?_, fun r hr ↦ ?_⟩,
    ⟨hkeeps.current, hkeeps.idle, hkeeps'⟩, hstates⟩
  · have hlt := length_lt_of_nodup hqueue.nodup hqueue.null_notMem
    rw [List.length_append, List.length_singleton] at hlt ⊢
    change ((Sched.linkTail _ _).sched.runnableCount + 1).toNat = _
    rw [hcount, UInt64.toNat_add]
    change (s.sched.runnableCount.toNat + 1) % 2 ^ 64 = _
    rw [h.count, Nat.mod_eq_of_lt hlt]
  · change (Sched.linkTail _ _).states r = _
    rw [hstates]
    rcases List.mem_append.mp hr with hr | hr
    · rw [Function.update_of_ne (ne_of_mem_of_not_mem hr hp)]
      exact h.ready r hr
    · rw [List.mem_singleton.mp hr, Function.update_self]
  · change validThreadObject (Sched.linkTail _ _) r = true
    rw [hkeeps']
    rcases List.mem_append.mp hr with hr | hr
    · exact h.valid r hr
    · rw [List.mem_singleton.mp hr, hvalid]

theorem pickNext (h : Lists s (x :: q)) : ∃ s', mcsosSchedPickNext s = (x, s') ∧ Lists s' q ∧
    Keeps s s' ∧ s'.states = s.states := by
  have hhead : s.sched.readyHead = x := h.queue.seg.1
  have hx : x ≠ 0 := ne_zero_of_valid (h.valid x List.mem_cons_self)
  have hcount : s.sched.runnableCount.toNat = q.length + 1 := h.count
  have hpos : s.sched.runnableCount > 0 := by
    rw [gt_iff_lt, UInt64.lt_iff_toNat_lt, hcount]
    exact Nat.succ_pos _
  have hnexts : (s.modify x fun t ↦ { t with next := 0 }).nexts = Function.update s.nexts x 0 :=
    nexts_modify
  have hstates : (s.modify x fun t ↦ { t with next := 0 }).states = s.states :=
    states_modify_of_eq rfl
  have hvalid : validThreadObject (s.modify x fun t ↦ { t with next := 0 }) =
    validThreadObject s := valid_modify rfl
  rw [mcsosSchedPickNext, if_neg (by rw [h.initialized]; decide), hhead, if_neg hx]
  refine ⟨_, rfl, ⟨h.initialized, hnexts ▸ h.queue.remove, ?_, fun r hr ↦ ?_, fun r hr ↦ ?_⟩,
    ⟨rfl, rfl, hvalid⟩, hstates⟩
  · change (if s.sched.runnableCount > 0 then s.sched.runnableCount - 1
      else s.sched.runnableCount).toNat = _
    rw [if_pos hpos, UInt64.toNat_sub_of_le _ _ (UInt64.le_iff_toNat_le.mpr ?_), hcount]
    · rfl
    · rw [hcount]
      exact Nat.le_add_left 1 q.length
  · exact (congrFun hstates r).trans (h.ready r (List.mem_cons_of_mem x hr))
  · exact (congrFun hvalid r).trans (h.valid r (List.mem_cons_of_mem x hr))

theorem pickNext_nil (h : Lists s []) : mcsosSchedPickNext s = (s.sched.idle, s) := by
  rw [mcsosSchedPickNext, if_neg (by rw [h.initialized]; decide),
    if_pos (h.queue.head_eq_null.mpr rfl)]

theorem congr (h : Lists s q) (hsched : s'.sched.initialized = s.sched.initialized ∧
      s'.sched.readyHead = s.sched.readyHead ∧ s'.sched.readyTail = s.sched.readyTail ∧
        s'.sched.runnableCount = s.sched.runnableCount)
    (hsame : ∀ p ∈ q, s'.nexts p = s.nexts p ∧ s'.states p = s.states p ∧
      validThreadObject s' p = validThreadObject s p) : Lists s' q := by
  obtain ⟨hinit, hhead, htail, hcount⟩ := hsched
  refine ⟨hinit.trans h.initialized, ?_, ?_, fun p hp ↦ ?_, fun p hp ↦ ?_⟩
  · rw [hhead, htail]
    exact h.queue.congr fun p hp ↦ (hsame p hp).1
  · rw [hcount, h.count]
  · rw [(hsame p hp).2.1, h.ready p hp]
  · rw [(hsame p hp).2.2, h.valid p hp]

theorem modify (h : Lists s q) (hp : p ∉ q)
    (hmagic : (f (s.threads p)).magic = (s.threads p).magic) :
    Lists (s.modify p f) q := by
  refine h.congr ⟨rfl, rfl, rfl, rfl⟩ fun r hr ↦ ?_
  have hne := ne_of_mem_of_not_mem hr hp
  rw [nexts_modify, states_modify, valid_modify hmagic, Function.update_of_ne hne,
    Function.update_of_ne hne]
  exact ⟨rfl, rfl, rfl⟩

theorem addSwitch (h : Lists s q) (p : Ptr) : Lists (addSwitch p s) q := by
  refine h.congr ⟨rfl, rfl, rfl, rfl⟩ fun r _ ↦ ?_
  rw [states_addSwitch, valid_addSwitch, Sched.addSwitch, nexts_modify_of_eq rfl]
  exact ⟨rfl, rfl, rfl⟩

theorem dispatch {old next : Ptr} (h : Lists s q) (hnext : next ∉ q) :
    Lists (dispatch old next s) q ∧ (Sched.dispatch old next s).sched.current = next ∧
      (Sched.dispatch old next s).sched.idle = s.sched.idle ∧
        validThreadObject (Sched.dispatch old next s) = validThreadObject s ∧
          (Sched.dispatch old next s).states = Function.update s.states next .running := by
  have hlists : Lists (s.modify next fun t ↦ { t with state := .running }) q := h.modify hnext rfl
  have hvalid : validThreadObject (s.modify next fun t ↦ { t with state := .running }) =
    validThreadObject s := valid_modify rfl
  have hstates : (s.modify next fun t ↦ { t with state := .running }).states =
    Function.update s.states next .running := states_modify
  rw [← valid_addSwitch (p := old), ← valid_addSwitch (p := next)] at hvalid
  rw [← states_addSwitch (p := old), ← states_addSwitch (p := next)] at hstates
  exact ⟨((hlists.addSwitch old).addSwitch next).congr ⟨rfl, rfl, rfl, rfl⟩
    fun _ _ ↦ ⟨rfl, rfl, rfl⟩, rfl, rfl, hvalid, hstates⟩

end Lists

/-! ## The current thread -/

/-- The scheduler as a queue: the current thread and the ready threads in order. -/
structure Fifo where
  current : Ptr
  ready : List Ptr

/-- The first ready thread, or the idle thread, becomes the current one; `back` is appended. -/
def Fifo.dispatch (idle : Ptr) (back : List Ptr) (a : Fifo) : Fifo :=
  match a.ready with
  | [] => ⟨idle, back⟩
  | x :: xs => ⟨x, xs ++ back⟩

/-- The ready list is `q`, and the threads `current` and `idle` are not in it. -/
structure Core (s : State) (q : List Ptr) : Prop extends Lists s q where
  current_valid : validThreadObject s s.sched.current = true
  idle_valid : validThreadObject s s.sched.idle = true
  current_notMem : s.sched.current ∉ q
  idle_running : s.states s.sched.idle = .running

/-- The ready list is `q`, the current thread is not in it, and there is an idle thread, in whatever
state. -/
structure Seated (s : State) (q : List Ptr) : Prop extends Lists s q where
  current_valid : validThreadObject s s.sched.current = true
  idle_valid : validThreadObject s s.sched.idle = true
  current_notMem : s.sched.current ∉ q

theorem Core.seated (h : Core s q) : Seated s q :=
  ⟨h.toLists, h.current_valid, h.idle_valid, h.current_notMem⟩

theorem Seated.core (h : Seated s q) (hidle : s.states s.sched.idle = .running) : Core s q :=
  ⟨h.toLists, h.current_valid, h.idle_valid, h.current_notMem, hidle⟩

/-- The thread that `mcsos_sched_yield` puts back into the list. -/
def back (s : State) : List Ptr :=
  if s.states s.sched.current = .running ∧ s.sched.current ≠ s.sched.idle then [s.sched.current]
  else []

namespace Core

theorem idle_notMem (h : Core s q) : s.sched.idle ∉ q :=
  h.notMem_of_state (by rw [h.idle_running]; decide)

/-- What `mcsos_sched_yield` gets from `mcsos_sched_pick_next`. -/
structure Picked (s : State) (q : List Ptr) (next : Ptr) (s' : State) (q' : List Ptr) : Prop where
  lists : Lists s' q'
  keeps : Keeps s s'
  states : s'.states = s.states
  valid : validThreadObject s next = true
  next_notMem : next ∉ q'
  current_notMem : s.sched.current ∉ q'
  dispatch : ∀ back, (⟨s.sched.current, q⟩ : Fifo).dispatch s.sched.idle back = ⟨next, q' ++ back⟩
  alone : next = s.sched.current → s.sched.current = s.sched.idle

/-- The states after `mcsos_sched_yield`. -/
structure Yielded (s : State) (q : List Ptr) (s' : State) (q' : List Ptr) : Prop where
  core : Core s' q'
  idle : s'.sched.idle = s.sched.idle
  valid : validThreadObject s' = validThreadObject s
  dispatch : (⟨s'.sched.current, q'⟩ : Fifo) =
    (⟨s.sched.current, q⟩ : Fifo).dispatch s.sched.idle (back s)
  states : ∀ r, s'.states r =
    if r = s'.sched.current then .running else if r ∈ back s then .ready else s.states r

theorem Yielded.mem {q' : List Ptr} (h : Yielded s q s' q') :
    (∀ r ∈ q, r = s'.sched.current ∨ r ∈ q') ∧ (∀ r ∈ back s, r ∈ q') ∧
      (s'.sched.current = s.sched.idle ∨ s'.sched.current ∈ q) ∧
        ∀ r ∈ q', r ∈ q ∨ r ∈ back s := by
  have hdispatch := h.dispatch
  cases q with
  | nil =>
    obtain ⟨hcurrent, rfl⟩ := Fifo.mk.inj hdispatch
    exact ⟨fun _ hr ↦ absurd hr List.not_mem_nil, fun _ ↦ id, .inl hcurrent, fun _ ↦ .inr⟩
  | cons x q =>
    obtain ⟨hcurrent, rfl⟩ := Fifo.mk.inj hdispatch
    refine ⟨fun r hr ↦ ?_, fun r hr ↦ List.mem_append_right q hr,
      .inr (hcurrent ▸ List.mem_cons_self), fun r hr ↦ ?_⟩
    · rw [hcurrent]
      exact (List.mem_cons.mp hr).imp_right (List.mem_append_left _)
    · exact (List.mem_append.mp hr).imp_left (List.mem_cons_of_mem x)

theorem mem_back (hr : r ∈ back s) : r = s.sched.current ∧ r ≠ s.sched.idle := by
  rw [back] at hr
  split at hr
  · next hand =>
    obtain rfl := List.mem_singleton.mp hr
    exact ⟨rfl, hand.2⟩
  · exact absurd hr List.not_mem_nil

theorem Picked.setState {next : Ptr} {s₁ : State} {q₁ : List Ptr}
    (picked : Picked s q next s₁ q₁) (state : ThreadState) :
    Lists (s₁.modify s.sched.current fun t ↦ { t with state := state }) q₁ ∧
      validThreadObject (s₁.modify s.sched.current fun t ↦ { t with state := state }) =
        validThreadObject s ∧
      (s₁.modify s.sched.current fun t ↦ { t with state := state }).states =
        Function.update s.states s.sched.current state := by
  refine ⟨picked.lists.modify picked.current_notMem rfl, ?_, ?_⟩
  · exact (valid_modify rfl).trans picked.keeps.valid
  · rw [states_modify, picked.states]

end Core

namespace Seated

/-- The states after `mcsos_sched_yield`. -/
structure Dispatched (s : State) (q : List Ptr) (s' : State) (q' : List Ptr) : Prop where
  seated : Seated s' q'
  idle : s'.sched.idle = s.sched.idle
  valid : validThreadObject s' = validThreadObject s
  dispatch : (⟨s'.sched.current, q'⟩ : Fifo) =
    (⟨s.sched.current, q⟩ : Fifo).dispatch s.sched.idle (back s)
  states : ∀ r, s'.states r =
    if r = s'.sched.current then .running else if r ∈ back s then .ready else s.states r

theorem pick (h : Seated s q) :
    ∃ next s' q', mcsosSchedPickNext s = (next, s') ∧ Core.Picked s q next s' q' := by
  cases q with
  | nil =>
    exact ⟨s.sched.idle, s, [], h.pickNext_nil, h.toLists, ⟨rfl, rfl, rfl⟩, rfl, h.idle_valid,
      List.not_mem_nil, List.not_mem_nil, fun _ ↦ rfl, Eq.symm⟩
  | cons x q =>
    obtain ⟨s', hpick, hlists, hkeeps, hstates⟩ := h.pickNext
    obtain ⟨hcurrent, hnotMem⟩ := not_or.mp (mt List.mem_cons.mpr h.current_notMem)
    exact ⟨x, s', q, hpick, hlists, hkeeps, hstates, h.valid x List.mem_cons_self,
      (List.nodup_cons.mp h.queue.nodup).1, hnotMem, fun _ ↦ rfl, fun hx ↦ absurd hx.symm hcurrent⟩

/-- The switch to another thread, after the old one has been put back. -/
theorem handOver {next : Ptr} {s₁ s₂ : State} {q₁ : List Ptr} (h : Seated s q)
    (picked : Core.Picked s q next s₁ q₁) (hne : next ≠ s.sched.current)
    (hlists : Lists s₂ (q₁ ++ back s)) (hkeeps : Keeps s s₂)
    (hstates : ∀ r, s₂.states r = if r ∈ back s then .ready else s.states r) :
    Dispatched s q (dispatch s.sched.current next s₂) (q₁ ++ back s) := by
  have hnext : next ∉ q₁ ++ back s := fun hmem ↦ (List.mem_append.mp hmem).elim picked.next_notMem
    fun hr ↦ hne (Core.mem_back hr).1
  obtain ⟨hlists', hcurrent, hidle, hvalid, hstates'⟩ := hlists.dispatch hnext
  rw [hkeeps.valid] at hvalid
  rw [hkeeps.idle] at hidle
  refine ⟨⟨hlists', ?_, ?_, ?_⟩, hidle, hvalid, ?_, fun r ↦ ?_⟩
  · rw [hvalid, hcurrent, picked.valid]
  · rw [hvalid, hidle, h.idle_valid]
  · rwa [hcurrent]
  · rw [hcurrent, picked.dispatch]
  · rw [hstates', hcurrent, Function.update_apply, hstates]

/-- `mcsos_sched_yield` dispatches the first ready thread and puts the old one back. -/
theorem yield (h : Seated s q) :
    ∃ s' q', mcsosSchedYield s = (.ok, s') ∧ Dispatched s q s' q' := by
  obtain ⟨next, s₁, q₁, hpick, picked⟩ := h.pick
  have hvalid : validThreadObject s₁ next = true := by rw [picked.keeps.valid, picked.valid]
  have hstates (r : Ptr) : (s₁.threads r).state = s.states r := congrFun picked.states r
  rw [mcsosSchedYield, if_neg (by rw [h.initialized, h.current_valid]; decide)]
  dsimp only
  rw [hpick]
  dsimp only
  rw [if_neg (by rw [hvalid]; decide), picked.keeps.idle, hstates]
  split
  · next heq =>
    -- only the idle thread is chosen while it runs, and then it goes on
    have hidle := picked.alone heq
    have hback : back s = [] := if_neg fun hand ↦ hand.2 hidle
    obtain ⟨hlists, hvalid', hstates'⟩ := picked.setState .running
    refine ⟨_, q₁, rfl, ⟨hlists, ?_, ?_, ?_⟩, picked.keeps.idle, hvalid', ?_, fun r ↦ ?_⟩
    · rw [hvalid']
      exact (congrArg _ picked.keeps.current).trans h.current_valid
    · rw [hvalid']
      exact (congrArg _ picked.keeps.idle).trans h.idle_valid
    · exact fun hmem ↦ picked.current_notMem (picked.keeps.current ▸ hmem)
    · rw [picked.dispatch, hback, List.append_nil, heq]
      exact congrArg (Fifo.mk · q₁) picked.keeps.current
    · rw [hstates', hback, if_neg List.not_mem_nil, Function.update_apply]
      exact congrArg (fun p ↦ if r = p then _ else _) picked.keeps.current.symm
  · next hne =>
    split
    · next hand =>
      have hback : back s = [s.sched.current] := if_pos hand
      obtain ⟨hlists, hvalid', hstates'⟩ := picked.setState .ready
      have hcurrent : validThreadObject _ s.sched.current = true :=
        (congrFun hvalid' _).trans h.current_valid
      have hready : State.states _ s.sched.current = .ready :=
        (congrFun hstates' _).trans (Function.update_self ..)
      obtain ⟨s₃, henqueue, hlists₃, hkeeps₃, hstates₃⟩ := hlists.enqueue picked.current_notMem
        hcurrent (.inr (.inl hready))
      rw [henqueue]
      refine ⟨_, _, rfl, h.handOver picked hne (hback ▸ hlists₃) ⟨?_, ?_, ?_⟩ fun r ↦ ?_⟩
      · exact hkeeps₃.current.trans picked.keeps.current
      · exact hkeeps₃.idle.trans picked.keeps.idle
      · exact hkeeps₃.valid.trans hvalid'
      · rw [hstates₃, hstates', Function.update_idem, hback, Function.update_apply]
        simp only [List.mem_singleton]
    · next hand =>
      have hback : back s = [] := if_neg hand
      refine ⟨_, _, rfl, h.handOver picked hne ?_ picked.keeps fun r ↦ ?_⟩
      · rw [hback, List.append_nil]
        exact picked.lists
      · rw [hback, if_neg List.not_mem_nil, picked.states]

theorem tick (h : Seated s q) : ∃ s', mcsosSchedTick s = (.ok, s') ∧ Seated s' q ∧ Keeps s s' ∧
    s'.states = s.states := by
  have hstates : (s.modify s.sched.current fun t ↦ { t with ticks := t.ticks + 1 }).states =
    s.states := states_modify_of_eq rfl
  have hnexts : (s.modify s.sched.current fun t ↦ { t with ticks := t.ticks + 1 }).nexts =
    s.nexts := nexts_modify_of_eq rfl
  have hvalid : validThreadObject (s.modify s.sched.current fun t ↦
    { t with ticks := t.ticks + 1 }) = validThreadObject s := valid_modify rfl
  rw [mcsosSchedTick, if_neg (by rw [h.initialized, h.current_valid]; decide)]
  refine ⟨_, rfl, ⟨h.congr ⟨rfl, rfl, rfl, rfl⟩ fun r _ ↦ ⟨congrFun hnexts r, congrFun hstates r,
    congrFun hvalid r⟩, ?_, ?_, h.current_notMem⟩, ⟨rfl, rfl, hvalid⟩, hstates⟩
  · exact (congrFun hvalid _).trans h.current_valid
  · exact (congrFun hvalid _).trans h.idle_valid

/-- `mcsos_thread_block_current` lets the current thread yield with the state `BLOCKED`. -/
theorem block (h : Seated s q) (hne : s.sched.current ≠ s.sched.idle) :
    mcsosThreadBlockCurrent s =
        mcsosSchedYield (s.modify s.sched.current fun t ↦ { t with state := .blocked }) ∧
      Seated (s.modify s.sched.current fun t ↦ { t with state := .blocked }) q := by
  have hvalid : validThreadObject (s.modify s.sched.current fun t ↦
    { t with state := .blocked }) = validThreadObject s := valid_modify rfl
  refine ⟨?_, h.modify h.current_notMem rfl, ?_, ?_, h.current_notMem⟩
  · rw [mcsosThreadBlockCurrent, if_neg (by rw [h.initialized, h.current_valid]; decide),
      if_neg hne]
  · rw [hvalid]
    exact h.current_valid
  · rw [hvalid]
    exact h.idle_valid

end Seated

namespace Core

theorem yield (h : Core s q) : ∃ s' q', mcsosSchedYield s = (.ok, s') ∧ Yielded s q s' q' := by
  obtain ⟨s', q', heq, hdispatched⟩ := h.seated.yield
  refine ⟨s', q', heq, hdispatched.seated.core ?_, hdispatched.idle, hdispatched.valid,
    hdispatched.dispatch, hdispatched.states⟩
  rw [hdispatched.idle, hdispatched.states, if_neg fun hr ↦ (mem_back hr).2 rfl, h.idle_running,
    ite_self]

theorem tick (h : Core s q) : ∃ s', mcsosSchedTick s = (.ok, s') ∧ Core s' q ∧ Keeps s s' ∧
    s'.states = s.states := by
  obtain ⟨s', heq, hseated, hkeeps, hstates⟩ := h.seated.tick
  exact ⟨s', heq, hseated.core (by rw [hkeeps.idle, hstates, h.idle_running]), hkeeps, hstates⟩

theorem block (h : Core s q) (hne : s.sched.current ≠ s.sched.idle) :
    mcsosThreadBlockCurrent s =
        mcsosSchedYield (s.modify s.sched.current fun t ↦ { t with state := .blocked }) ∧
      Core (s.modify s.sched.current fun t ↦ { t with state := .blocked }) q := by
  obtain ⟨heq, hseated⟩ := h.seated.block hne
  refine ⟨heq, hseated.core ?_⟩
  rw [states_modify]
  exact (Function.update_of_ne hne.symm ..).trans h.idle_running

end Core

/-! ## Counting and validating -/

section Loops

variable {fuel : ℕ} {count : UInt64} {last : Ptr}

theorem countFrom_null : countFrom s fuel 0 count = some count := by
  rw [countFrom.eq_def]
  exact if_pos rfl

theorem countFrom_succ (hp : p ≠ 0) :
    countFrom s (fuel + 1) p count = countFrom s fuel (s.nexts p) (count + 1) := by
  rw [countFrom.eq_def]
  exact if_neg hp

theorem countFrom_seg (h : Seg s.nexts p q r) (h0 : 0 ∉ q) :
    countFrom s (q.length + fuel) p count =
      countFrom s fuel r (count + UInt64.ofNat q.length) := by
  induction q generalizing p count with
  | nil =>
    obtain rfl : p = r := h
    rw [List.length_nil, Nat.zero_add]
    exact congrArg _ (UInt64.add_zero count).symm
  | cons x q ih =>
    obtain ⟨rfl, h⟩ := h
    obtain ⟨hx, h0⟩ := not_or.mp (mt List.mem_cons.mpr h0)
    rw [List.length_cons, Nat.add_right_comm, countFrom_succ (Ne.symm hx), ih h h0,
      UInt64.add_assoc, Nat.add_comm q.length, UInt64.ofNat_add]
    rfl

theorem validateFrom_null : validateFrom s fuel 0 last count =
    if last ≠ s.sched.readyTail then some .ecorrupt
    else if count ≠ s.sched.runnableCount then some .ecorrupt else some .ok := by
  rw [validateFrom.eq_def]
  exact if_pos rfl

theorem validateFrom_succ (hp : p ≠ s.sched.current) (hvalid : validThreadObject s p = true)
    (hready : s.states p = .ready) (hcount : ¬count + 1 > s.sched.runnableCount + 1) :
    validateFrom s (fuel + 1) p last count = validateFrom s fuel (s.nexts p) p (count + 1) := by
  rw [validateFrom.eq_def]
  dsimp only
  rw [if_neg (ne_zero_of_valid hvalid), if_neg, if_neg hp, if_neg hcount]
  · rfl
  · rw [hvalid]
    exact fun hor ↦ hor.elim (by decide) fun hne ↦ hne hready

theorem validateFrom_seg (h : Seg s.nexts p q r) (hready : ∀ x ∈ q, s.states x = .ready)
    (hvalid : ∀ x ∈ q, validThreadObject s x = true) (hcurrent : s.sched.current ∉ q)
    (hcount : count.toNat + q.length ≤ s.sched.runnableCount.toNat)
    (hlt : s.sched.runnableCount.toNat + 1 < 2 ^ 64) :
    validateFrom s (q.length + fuel) p last count =
      validateFrom s fuel r (q.getLast?.getD last) (count + UInt64.ofNat q.length) := by
  induction q generalizing p count last with
  | nil =>
    obtain rfl : p = r := h
    rw [List.length_nil, Nat.zero_add]
    exact congrArg _ (UInt64.add_zero count).symm
  | cons x q ih =>
    obtain ⟨rfl, h⟩ := h
    obtain ⟨hx, hcurrent⟩ := not_or.mp (mt List.mem_cons.mpr hcurrent)
    rw [List.length_cons] at hcount
    have hone : (count + 1).toNat = count.toNat + 1 := toNat_add_one (by omega)
    have hrunnable := toNat_add_one hlt
    have hle : ¬count + 1 > s.sched.runnableCount + 1 := by
      rw [gt_iff_lt, UInt64.lt_iff_toNat_lt, hone, hrunnable]
      omega
    rw [List.length_cons, Nat.add_right_comm, validateFrom_succ (Ne.symm hx)
      (hvalid p List.mem_cons_self) (hready p List.mem_cons_self) hle,
      ih h (fun x hx ↦ hready x (List.mem_cons_of_mem p hx))
        (fun x hx ↦ hvalid x (List.mem_cons_of_mem p hx)) hcurrent (by omega),
      UInt64.add_assoc, Nat.add_comm q.length, UInt64.ofNat_add]
    refine congrArg₂ _ ?_ rfl
    cases q with
    | nil => rfl
    | cons y q => rw [List.getLast?_cons_cons, List.getLast?_eq_some_getLast (List.cons_ne_nil y q),
        Option.getD_some, Option.getD_some]

end Loops

theorem Lists.runnableCount_eq (h : Lists s q) :
    s.sched.runnableCount = UInt64.ofNat q.length := by
  rw [← h.count, UInt64.ofNat_toNat]

theorem Lists.readyCount (h : Lists s q) :
    mcsosSchedReadyCount s = some s.sched.runnableCount := by
  have hlt := length_lt_of_nodup h.queue.nodup h.queue.null_notMem
  rw [mcsosSchedReadyCount, if_neg (by rw [h.initialized]; decide), rounds,
    show 2 ^ 64 = q.length + (2 ^ 64 - q.length) by omega,
    countFrom_seg h.queue.seg h.queue.null_notMem, UInt64.zero_add, countFrom_null,
    h.runnableCount_eq]

/-- `mcsos_sched_validate` finds nothing wrong with a list that is as it should be. -/
theorem validate_of_seg (hinit : s.sched.initialized = true)
    (hcurrent : validThreadObject s s.sched.current = true)
    (hseg : Seg s.nexts s.sched.readyHead q 0) (hready : ∀ p ∈ q, s.states p = .ready)
    (hvalid : ∀ p ∈ q, validThreadObject s p = true) (hnot : s.sched.current ∉ q)
    (hcount : s.sched.runnableCount.toNat = q.length) (hlt : q.length + 1 < 2 ^ 64)
    (htail : s.sched.readyTail = q.getLast?.getD 0) : mcsosSchedValidate s = some .ok := by
  have hlength : UInt64.ofNat q.length = s.sched.runnableCount := by
    rw [← hcount, UInt64.ofNat_toNat]
  rw [mcsosSchedValidate, if_neg (by rw [hinit, hcurrent]; decide), rounds,
    show 2 ^ 64 = q.length + (2 ^ 64 - q.length) by omega,
    validateFrom_seg hseg hready hvalid hnot (by rw [hcount]; simp) (by rw [hcount]; exact hlt),
    validateFrom_null, if_neg (not_not.mpr htail.symm), UInt64.zero_add,
    if_neg (not_not.mpr hlength)]

theorem Core.validate (h : Core s q) : mcsosSchedValidate s = some .ok := by
  have hcurrent0 := ne_zero_of_valid h.current_valid
  have hlt : (s.sched.current :: q).length < 2 ^ 64 :=
    length_lt_of_nodup (List.nodup_cons.mpr ⟨h.current_notMem, h.queue.nodup⟩)
      (fun hmem ↦ (List.mem_cons.mp hmem).elim (Ne.symm hcurrent0) h.queue.null_notMem)
  exact validate_of_seg h.initialized h.current_valid h.queue.seg h.ready h.valid h.current_notMem
    h.count hlt h.queue.last

end Sched

end Mcsos
