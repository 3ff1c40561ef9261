import GaussMatrix.Library.SortedMap
import GaussMatrix.Library.Text

/-!
# Metrics

Counters and gauges under a name and a set of labels.
-/

namespace GaussMatrix.Obs

open Library

/-- A time series: a name and its labels, sorted. -/
structure Series where
  name : Str
  labels : List (Str ×ₗ Str)
  deriving DecidableEq

/-- Series are ordered by name, then by labels. -/
instance : LinearOrder Series :=
  LinearOrder.lift' (fun s : Series => toLex (s.name, s.labels)) fun s t h => by
    cases s
    cases t
    obtain ⟨rfl, rfl⟩ := Prod.mk.inj (toLex.injective h)
    rfl

def Series.new (name : Str) (labels : List (Str × Str)) : Series :=
  ⟨name, (labels.map toLex).insertionSort (· ≤ ·)⟩

structure Metrics where
  counters : SortedMap Series UInt64
  gauges : SortedMap Series Int

namespace Metrics

def empty : Metrics := ⟨SortedMap.empty, SortedMap.empty⟩

def counter (m : Metrics) (name : Str) (labels : List (Str × Str)) : UInt64 :=
  (m.counters.get (Series.new name labels)).getD 0

/-- Add to a counter; none where the build checks overflow and the sum overflows. -/
def addCounter (overflowChecks : Bool) (m : Metrics) (name : Str) (labels : List (Str × Str))
    (n : UInt64) : Option Metrics :=
  let value := m.counter name labels
  if overflowChecks ∧ 2 ^ 64 ≤ value.toNat + n.toNat then none
  else some { m with counters := m.counters.insert (Series.new name labels) (value + n) }

def incCounter (overflowChecks : Bool) (m : Metrics) (name : Str) (labels : List (Str × Str)) :
    Option Metrics :=
  m.addCounter overflowChecks name labels 1

def setGauge (m : Metrics) (name : Str) (labels : List (Str × Str)) (value : Int) : Metrics :=
  { m with gauges := m.gauges.insert (Series.new name labels) value }

def gauge (m : Metrics) (name : Str) (labels : List (Str × Str)) : Option Int :=
  m.gauges.get (Series.new name labels)

/-- Adding what the counter has room for reads back the sum, and the other counters as they were. -/
theorem addCounter_of_lt {m : Metrics} {name : Str} {labels : List (Str × Str)} {n : UInt64}
    (overflowChecks : Bool) (h : (m.counter name labels).toNat + n.toNat < 2 ^ 64) :
    ∃ m', m.addCounter overflowChecks name labels n = some m' ∧
      (m'.counter name labels).toNat = (m.counter name labels).toNat + n.toNat ∧
      ∀ name' labels', Series.new name' labels' ≠ Series.new name labels →
        m'.counter name' labels' = m.counter name' labels' := by
  have hfits : ¬ (overflowChecks = true ∧ 2 ^ 64 ≤ (m.counter name labels).toNat + n.toNat) :=
    fun hover => absurd h (Nat.not_lt.mpr hover.2)
  refine ⟨_, if_neg hfits, ?_, ?_⟩
  · show (((m.counters.insert (Series.new name labels) (m.counter name labels + n)).get
      (Series.new name labels)).getD 0).toNat = _
    rw [SortedMap.get_insert_self, Option.getD_some, UInt64.toNat_add, Nat.mod_eq_of_lt h]
  · intro name' labels' hne
    show ((m.counters.insert (Series.new name labels) _).get (Series.new name' labels')).getD 0 = _
    rw [SortedMap.get_insert_ne _ hne]
    rfl

theorem counter_setGauge (m : Metrics) (gauge : Str) (gaugeLabels : List (Str × Str)) (value : Int)
    (name : Str) (labels : List (Str × Str)) :
    (m.setGauge gauge gaugeLabels value).counter name labels = m.counter name labels :=
  rfl

theorem gauge_setGauge (m : Metrics) (name : Str) (labels : List (Str × Str)) (value : Int) :
    (m.setGauge name labels value).gauge name labels = some value :=
  SortedMap.get_insert_self _ _ _

end Metrics

end GaussMatrix.Obs
