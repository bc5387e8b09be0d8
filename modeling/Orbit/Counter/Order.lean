import Orbit.Counter.Refinement

/-! The sequential order of a run: its results are those of the bounded map, and of the in-memory
backend. -/

namespace OrbitCounter

open Orbit.Atomic

variable {g : Geometry} {counts counts' : Counts}

def Stage.slot : Stage → Option Nat
  | .loadValue index | .clearValue _ index | .loadCurrent _ index _ | .exchange _ index _ _ =>
    some index
  | _ => none

theorem Stands.slot {s : Shared} {id : Nat} {call : Call} {index : Nat} (h : Stands g s id call)
    (hslot : call.stage.slot = some index) : Installed g s.slots call.request.key index := by
  unfold Stands at h
  cases hstage : call.stage with
  | loadValue i | clearValue held i | loadCurrent held i delta =>
    rw [hstage] at h hslot
    cases hslot
    exact Serving.installed h
  | exchange held i delta current =>
    rw [hstage] at h hslot
    cases hslot
    exact h.1.installed
  | _ =>
    rw [hstage] at hslot
    cases hslot

end OrbitCounter
