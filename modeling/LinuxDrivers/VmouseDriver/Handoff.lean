import LinuxDrivers.Lib.Runs
import LinuxDrivers.VmouseDriver.Worker

/-! The hand-over of mouse keys from `vkbd_filter` to `vms_func` through one slot and one work
item. Keyboard events and worker runs interleave freely; each is one atomic step. -/
namespace LinuxDrivers.VmouseDriver
open Runs

inductive Act where
  | event (type code : Nat) (value : Int)
  | worker
  deriving DecidableEq, Repr

structure Handoff where
  vms : Vmouse
  swallowed : List (Nat × Int)
  acted : List (Nat × Int)
  deriving DecidableEq, Repr

def Handoff.initial : Handoff := ⟨.initial, [], []⟩

def Handoff.step (s : Handoff) : Act → Option Handoff
  | .event type code value =>
      let (ret, vms) := vkbdFilter s.vms type code value
      some ⟨vms, if ret && mouseKey code then s.swallowed ++ [(code, value)] else s.swallowed, s.acted⟩
  | .worker =>
      if s.vms.workPending then
        let slot := (s.vms.eventCode, s.vms.value)
        let (vms, reports) := vmsFunc { s.vms with workPending := false }
        some ⟨vms, s.swallowed, if reports.isEmpty then s.acted else s.acted ++ [slot]⟩
      else none

def Handoff.waiting (s : Handoff) : List (Nat × Int) :=
  if s.vms.workPending && mouseKey s.vms.eventCode then [(s.vms.eventCode, s.vms.value)] else []

/-- An event is not stored over a mouse-key event the worker has not acted on yet. -/
def Handoff.KeepsSlot (s : Handoff) : Act → Prop
  | .event type code value => Stores s.vms type code value = true → s.waiting = []
  | .worker => True

/-- What a step can do: store an event, pass one by, or act on the slot. -/
theorem Handoff.step_cases {s t : Handoff} {a : Act} (h : s.step a = some t) :
    (∃ type code value, a = .event type code value ∧ Stores s.vms type code value = true ∧
      t.swallowed = s.swallowed ++ t.waiting ∧ t.acted = s.acted) ∨
    (∃ type code value, a = .event type code value ∧ Stores s.vms type code value = false ∧
      t.swallowed = s.swallowed ∧ t.acted = s.acted ∧ t.waiting = s.waiting) ∨
    (a = .worker ∧ t.swallowed = s.swallowed ∧ t.acted = s.acted ++ s.waiting ∧ t.waiting = []) := by
  cases a with
  | event type code value =>
    simp only [step, Option.some.injEq] at h
    subst h
    rcases vkbdFilter_slot s.vms type code value with ⟨hst, hret, hw, hc, hv⟩ | ⟨hst, hret, hw, hc, hv⟩
    · refine .inl ⟨type, code, value, rfl, hst, ?_, rfl⟩
      simp only [waiting, hret, hw, hc, hv, Bool.and_self, Bool.true_and]
      split <;> simp
    · refine .inr (.inl ⟨type, code, value, rfl, hst, ?_, rfl, ?_⟩)
      · simp only [hret, Bool.false_eq_true, if_false]
      · simp only [waiting, hw, hc, hv]
  | worker =>
    simp only [step] at h
    split at h
    · rename_i hp
      cases h
      have hacts := vmsFunc_acts { s.vms with workPending := false }
      have hslot := vmsFunc_slot { s.vms with workPending := false }
      refine .inr (.inr ⟨rfl, rfl, ?_, ?_⟩)
      · simp only [waiting, hacts, hp, Bool.true_and]
        cases mouseKey s.vms.eventCode <;> simp
      · simp only [waiting, hslot.1, Bool.false_and, Bool.false_eq_true, if_false]
    · cases h

def Handoff.Lost (s : Handoff) (n : Nat) : Prop :=
  s.swallowed.length = s.acted.length + s.waiting.length + n

/-- A step loses no event, or it is stored over a waiting one and loses that. -/
theorem Handoff.step_lost {s t : Handoff} {a : Act} {n : Nat} (hs : s.Lost n) (h : s.step a = some t) :
    (s.KeepsSlot a ∧ t.Lost n) ∨ t.Lost (n+1) := by
  unfold Lost at hs ⊢
  rcases Handoff.step_cases h with ⟨type, code, value, rfl, hst, hsw, hac⟩ |
    ⟨type, code, value, rfl, hst, hsw, hac, hw⟩ | ⟨rfl, hsw, hac, hw⟩
  · have hlen : s.waiting.length = 0 ∨ s.waiting.length = 1 := by
      unfold waiting
      split <;> simp
    rw [hsw, hac, List.length_append]
    rcases hlen with hz | ho
    · exact .inl ⟨fun _ => List.length_eq_zero_iff.mp hz, by omega⟩
    · right
      omega
  · left
    refine ⟨fun hst' => ?_, by rw [hsw, hac, hw]; exact hs⟩
    rw [hst] at hst'
    cases hst'
  · left
    refine ⟨trivial, ?_⟩
    rw [hsw, hac, hw, List.length_append, List.length_nil]
    omega

/-- Losses are never made good: a run without new losses kept the slot at every step. -/
theorem Handoff.run_lost {s u : Handoff} {acts : List Act} {n : Nat} (hs : s.Lost n)
    (h : run Handoff.step s acts = some u) :
    ∃ m, u.Lost m ∧ n ≤ m ∧ (m = n → Along Handoff.step Handoff.KeepsSlot s acts) := by
  induction acts generalizing s n with
  | nil =>
    cases h
    exact ⟨n, hs, Nat.le_refl n, fun _ => trivial⟩
  | cons a acts ih =>
    obtain ⟨t, ht, hrest⟩ := run_cons_eq_some.mp h
    rcases Handoff.step_lost hs ht with ⟨hk, hl⟩ | hl
    · obtain ⟨m, hm, hle, halong⟩ := ih hl hrest
      refine ⟨m, hm, hle, fun he t' ht' => ?_⟩
      rw [ht] at ht'
      cases ht'
      exact ⟨hk, halong he⟩
    · obtain ⟨m, hm, hle, _⟩ := ih hl hrest
      exact ⟨m, hm, by omega, fun he => by omega⟩

/-- Where the slot is kept, the worker acts on the swallowed events in order. -/
theorem Handoff.step_fifo {s t : Handoff} {a : Act} (hs : s.swallowed = s.acted ++ s.waiting)
    (hk : s.KeepsSlot a) (h : s.step a = some t) : t.swallowed = t.acted ++ t.waiting := by
  rcases Handoff.step_cases h with ⟨type, code, value, rfl, hst, hsw, hac⟩ |
    ⟨type, code, value, rfl, hst, hsw, hac, hw⟩ | ⟨rfl, hsw, hac, hw⟩
  · rw [hsw, hac, hs, hk hst, List.append_nil]
  · rw [hsw, hac, hw, hs]
  · rw [hsw, hac, hw, hs, List.append_nil]

theorem Handoff.waiting_idle {s : Handoff} (h : s.vms.workPending = false) : s.waiting = [] := by
  simp [waiting, h]

/-- Once no work is pending, the events the worker acted on are the swallowed ones, in order and
multiplicity, exactly when no event of the run was stored over a waiting mouse-key event. -/
theorem acted_eq_swallowed_iff (acts : List Act) (s : Handoff)
    (hrun : run Handoff.step .initial acts = some s) (hidle : s.vms.workPending = false) :
    s.acted = s.swallowed ↔ Along Handoff.step Handoff.KeepsSlot .initial acts := by
  constructor
  · intro he
    obtain ⟨m, hm, _, halong⟩ := Handoff.run_lost (n := 0) (by rfl) hrun
    apply halong
    rw [Handoff.Lost, he, Handoff.waiting_idle hidle] at hm
    simpa using hm
  · intro halong
    have hfifo := invariant_of_along Handoff.KeepsSlot (fun s => s.swallowed = s.acted ++ s.waiting)
      (fun _ _ _ hs hk h => Handoff.step_fifo hs hk h) rfl halong hrun
    rw [hfifo, Handoff.waiting_idle hidle, List.append_nil]

/-- With a worker run after every key the left button is pressed and released. -/
theorem space_stroke_kept :
    Along Handoff.step Handoff.KeepsSlot .initial
      [.event evKey keyLeftctrl 1, .event evKey keyLeftalt 1, .worker,
        .event evKey keySpace 1, .worker, .event evKey keySpace 0, .worker] := by
  obtain ⟨s, hrun, hidle, hsame⟩ : ∃ s, run Handoff.step .initial
      [.event evKey keyLeftctrl 1, .event evKey keyLeftalt 1, .worker,
        .event evKey keySpace 1, .worker, .event evKey keySpace 0, .worker] = some s ∧
      s.vms.workPending = false ∧ s.acted = s.swallowed := ⟨_, rfl, rfl, rfl⟩
  exact (acted_eq_swallowed_iff _ s hrun hidle).mp hsame

/-- A key typed right after the space bar is let go, before the worker ran, overwrites the
release: the left button stays down. -/
theorem space_release_lost :
    ¬ ∀ acts s, run Handoff.step .initial acts = some s → s.vms.workPending = false →
      s.acted = s.swallowed := by
  intro h
  obtain ⟨s, hrun, hidle, hacted, hswallowed⟩ : ∃ s, run Handoff.step .initial
      [.event evKey keyLeftctrl 1, .event evKey keyLeftalt 1, .worker,
        .event evKey keySpace 1, .worker, .event evKey keySpace 0, .event evKey 30 1, .worker] = some s ∧
      s.vms.workPending = false ∧ s.acted = [(keySpace, 1)] ∧
      s.swallowed = [(keySpace, 1), (keySpace, 0)] := ⟨_, rfl, rfl, rfl, rfl⟩
  have hsame := h _ s hrun hidle
  rw [hacted, hswallowed] at hsame
  exact absurd hsame (by decide)

end LinuxDrivers.VmouseDriver
