import CycleBounds.Cache.Level

/-!
# Cache hierarchies

A private first level, backed by a second level that other tasks may share, or directly by the
memory. The first level is analysed by itself, and the second one on the fetches that the first one
lets pass.
-/

namespace CycleBounds.Cache

structure Hierarchy where
  l1 : Config
  l2 : Option Config

structure Analysis where
  l1 : Classification
  l2 : Option Classification
  /-- The lines fetched at the last level. -/
  footprint : Footprint

namespace Hierarchy

def l2HitLatency (h : Hierarchy) : Nat :=
  match h.l2 with
  | none => h.l1.missLatency
  | some c => c.hitLatency

/-- The latency of a fetch that the memory serves. -/
def missPenalty (h : Hierarchy) : Nat :=
  match h.l2 with
  | none => h.l1.missLatency
  | some c => c.missLatency

def analyze (h : Hierarchy) (program : Code.Program) (entry : Nat) : Traced Fault Analysis := do
  let first ← Level.analyze program entry h.l1 none
  match h.l2 with
  | none =>
    return { l1 := first.classification, l2 := none, footprint := first.footprint }
  | some c =>
    let second ← Level.analyze program entry c (some first.classification)
    return {
      l1 := first.classification
      l2 := some second.classification
      footprint := second.footprint }

end Hierarchy

namespace Analysis

/-- The same analysis next to tasks on other cores, which share the second level only. -/
def weaken (a : Analysis) (others : List Footprint) : Except Fault Analysis := do
  match a.l2 with
  | none => return a
  | some k =>
    let k ← k.weaken a.footprint others
    return { a with l2 := some k }

end Analysis

end CycleBounds.Cache
