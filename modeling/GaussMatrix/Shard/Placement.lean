import GaussMatrix.Library.Ring
import GaussMatrix.Library.Runs
import GaussMatrix.Library.Text
import GaussMatrix.Util.Ids

/-!
# Placement of rooms on shards

A shard owns the points that its virtual nodes hash to, and a room belongs to the first point at or
after its own.  Points that two shards share go to the shard added last; all else depends on the set
of shards alone.
-/

namespace GaussMatrix.Shard

open Library Util

/-- A hash value, a `u64`. -/
abbrev Point : Type := Fin (2 ^ 64)

structure Placement where
  ring : SortedMap Point Str
  shards : Finset Str
  vnodes : UInt32

/-- The name that a virtual node is hashed under. -/
def vnodeName (shard : Str) (vnode : Nat) : Str := shard ++ '#' :: decimal vnode

namespace Placement

def defaultVnodes : UInt32 := 128

/-- An empty placement. -/
def new (vnodes : UInt32) : Placement where
  ring := SortedMap.empty
  shards := ∅
  vnodes := max vnodes 1

section

variable (hash : Str → Point) (p : Placement)

/-- The points of a shard, by virtual node. -/
def points (shard : Str) : List Point :=
  (List.range p.vnodes.toNat).map fun vnode => hash (vnodeName shard vnode)

/-- Add a shard; one that is there is left alone. -/
def addShard (shard : Str) : Placement :=
  if shard ∈ p.shards then p
  else
    { p with
      shards := insert shard p.shards
      ring := p.ring.insertAll ((p.points hash shard).map fun point => (point, shard)) }

/-- Drain a shard; one that is not there is left alone. -/
def removeShard (shard : Str) : Placement :=
  if shard ∈ p.shards then
    { p with
      shards := p.shards.erase shard
      ring := p.ring.filter fun _ owner => owner ≠ shard }
  else p

/-- The shard that owns a room, none on an empty ring. -/
def shardFor (room : RoomId) : Option Str := (p.ring.successor (hash room.asStr)).map Prod.snd

end

end Placement

/-- A change of the set of shards. -/
inductive ShardOp
  | add (shard : Str)
  | remove (shard : Str)

def shardStep (hash : Str → Point) (p : Placement) : ShardOp → Placement
  | .add shard => p.addShard hash shard
  | .remove shard => p.removeShard shard

/-- The placement after a sequence of changes. -/
def placementOf (hash : Str → Point) (vnodes : UInt32) (ops : List ShardOp) : Placement :=
  run (shardStep hash) (Placement.new vnodes) ops

theorem shards_shardStep (hash : Str → Point) (p : Placement) (op : ShardOp) :
    (shardStep hash p op).shards = match op with
      | .add shard => insert shard p.shards
      | .remove shard => p.shards.erase shard := by
  cases op with
  | add shard =>
      show (p.addShard hash shard).shards = insert shard p.shards
      rw [Placement.addShard]
      split
      · rename_i hmem
        rw [Finset.insert_eq_of_mem hmem]
      · rfl
  | remove shard =>
      show (p.removeShard shard).shards = p.shards.erase shard
      rw [Placement.removeShard]
      split
      · rfl
      · rename_i hmem
        rw [Finset.erase_eq_of_notMem hmem]

/-! ## One change -/

section

variable {hash : Str → Point} {p : Placement} {room : RoomId}

theorem shardFor_eq_some_iff {shard : Str} : p.shardFor hash room = some shard ↔
    ∃ point, p.ring.successor (hash room.asStr) = some (point, shard) := by
  rw [Placement.shardFor, Option.map_eq_some_iff]
  constructor
  · intro ⟨e, hsucc, howner⟩
    exact ⟨e.1, by rw [hsucc, ← howner]⟩
  · intro ⟨point, hsucc⟩
    exact ⟨(point, shard), hsucc, rfl⟩

theorem shardFor_eq_none_iff : p.shardFor hash room = none ↔ ∀ point, p.ring.get point = none := by
  rw [Placement.shardFor, Option.map_eq_none_iff, SortedMap.successor_eq_none_iff]

/-- An added shard takes rooms to itself only. -/
theorem shardFor_addShard (shard : Str) :
    (p.addShard hash shard).shardFor hash room = p.shardFor hash room ∨
      (p.addShard hash shard).shardFor hash room = some shard := by
  rw [Placement.addShard]
  split
  · exact Or.inl rfl
  · generalize hm : p.ring.insertAll ((p.points hash shard).map fun point => (point, shard)) = m
    have hget (point : Point) : m.get point =
        if point ∈ p.points hash shard then some shard else p.ring.get point := by
      rw [← hm]
      exact SortedMap.get_insertAll_const p.ring (p.points hash shard) shard point
    cases hnew : m.successor (hash room.asStr) with
    | none =>
        -- the ring is empty, so it was before
        left
        have hempty := SortedMap.successor_eq_none_iff.mp hnew
        have hold : p.shardFor hash room = none := by
          apply shardFor_eq_none_iff.mpr
          intro point
          have hpoint := (hget point).symm.trans (hempty point)
          split at hpoint
          · cases hpoint
          · exact hpoint
        rw [hold, Placement.shardFor, hnew]
        rfl
    | some e =>
        -- the point that is met is the new shard's, or it was met before too
        obtain ⟨point, owner⟩ := e
        have howner := (SortedMap.successor_eq_some_iff.mp hnew).1
        rw [hget] at howner
        split at howner
        · right
          rw [Placement.shardFor, hnew]
          exact congrArg some (Option.some.inj howner).symm
        · left
          have hkeys : ∀ k v, p.ring.get k = some v → ∃ v', m.get k = some v' := by
            intro k v hk
            rw [hget]
            split
            · exact ⟨shard, rfl⟩
            · exact ⟨v, hk⟩
          have hold := SortedMap.successor_of_more hkeys hnew howner
          rw [Placement.shardFor, Placement.shardFor, hnew, hold]

/-- A drained shard gives up its own rooms only. -/
theorem shardFor_removeShard (shard : Str) :
    p.shardFor hash room = some shard ∨
      (p.removeShard shard).shardFor hash room = p.shardFor hash room := by
  rw [Placement.removeShard]
  split
  · have hget (point : Point) : (p.ring.filter fun _ owner => owner ≠ shard).get point =
        (p.ring.get point).filter fun owner => owner ≠ shard :=
      SortedMap.get_filter _ _ _
    have hless : ∀ k v, (p.ring.filter fun _ owner => owner ≠ shard).get k = some v →
        p.ring.get k = some v := by
      intro k v hk
      rw [hget] at hk
      exact (Option.filter_eq_some_iff.mp hk).1
    cases hold : p.ring.successor (hash room.asStr) with
    | none =>
        right
        have hempty := SortedMap.successor_eq_none_iff.mp hold
        have hnone : (p.ring.filter fun _ owner => owner ≠ shard).successor (hash room.asStr) =
            none := by
          apply SortedMap.successor_eq_none_iff.mpr
          intro k
          rw [hget, hempty k]
          rfl
        rw [Placement.shardFor, Placement.shardFor, hold, hnone]
    | some e =>
        obtain ⟨point, owner⟩ := e
        by_cases howner : owner = shard
        · left
          rw [Placement.shardFor, hold, howner]
          rfl
        · right
          have hstays : (p.ring.filter fun _ owner => owner ≠ shard).get point = some owner := by
            rw [hget, (SortedMap.successor_eq_some_iff.mp hold).1]
            simp [howner]
          have hnew := SortedMap.successor_of_fewer hless hold hstays
          rw [Placement.shardFor, Placement.shardFor, hnew, hold]
  · exact Or.inr rfl

end

/-- In every placement reached, a shard added takes rooms to itself only, and a shard drained gives
up its own rooms only. -/
theorem minimal_disruption (hash : Str → Point) (vnodes : UInt32) (ops : List ShardOp)
    (room : RoomId) :
    let p := placementOf hash vnodes ops
    (∀ shard, (p.addShard hash shard).shardFor hash room = p.shardFor hash room ∨
        (p.addShard hash shard).shardFor hash room = some shard) ∧
      ∀ shard, p.shardFor hash room = some shard ∨
        (p.removeShard shard).shardFor hash room = p.shardFor hash room :=
  ⟨shardFor_addShard, shardFor_removeShard⟩

/-! ## Whole histories -/

theorem vnodeName_inj {s s' : Str} {v v' : Nat} (h : vnodeName s v = vnodeName s' v') :
    s = s' ∧ v = v' := by
  have hfree : ∀ n, '#' ∉ (decimal n).reverse := by
    intro n hmem
    have hdigit : ('#' : Char).isDigit = true :=
      Nat.isDigit_of_mem_toDigits (by decide) (by decide) (List.mem_reverse.mp hmem)
    exact absurd hdigit (by decide)
  have hrev : (decimal v).reverse ++ '#' :: s.reverse = (decimal v').reverse ++ '#' :: s'.reverse := by
    have := congrArg List.reverse h
    simpa [vnodeName] using this
  obtain ⟨hv, hs⟩ := append_sep_inj (hfree v) (hfree v') hrev
  refine ⟨List.reverse_injective hs, ?_⟩
  have hdec := List.reverse_injective hv
  exact padDecimal_injective 0 (by simpa [padDecimal] using hdec)

/-- The shards that a sequence of changes adds. -/
def addedShards (ops : List ShardOp) : List Str :=
  ops.filterMap fun op => match op with
    | .add shard => some shard
    | .remove _ => none

/-- The names that the virtual nodes of some shards are hashed under. -/
def vnodeNames (vnodes : UInt32) (shards : List Str) : Set Str :=
  {name | ∃ shard ∈ shards, ∃ vnode < (max vnodes 1).toNat, name = vnodeName shard vnode}

/-- The ring holds the points of the shards, each for its own. -/
structure OnRing (hash : Str → Point) (vnodes : UInt32) (added : List Str) (p : Placement) :
    Prop where
  vnodes : p.vnodes = max vnodes 1
  added : ∀ shard ∈ p.shards, shard ∈ added
  ring : ∀ point shard, p.ring.get point = some shard ↔
    shard ∈ p.shards ∧ point ∈ p.points hash shard

section

variable {hash : Str → Point} {vnodes : UInt32} {added : List Str} {p q : Placement}

theorem mem_points_iff {point : Point} {shard : Str} : point ∈ p.points hash shard ↔
    ∃ vnode < p.vnodes.toNat, hash (vnodeName shard vnode) = point := by
  simp [Placement.points]

theorem onRing_new : OnRing hash vnodes added (Placement.new vnodes) where
  vnodes := rfl
  added := by simp [Placement.new]
  ring := by simp [Placement.new]

/-- Two shards share no point when the hash tells their names apart. -/
theorem OnRing.eq_of_mem_points (h : OnRing hash vnodes added p)
    (hinj : Set.InjOn hash (vnodeNames vnodes added)) {point : Point} {s s' : Str} (hs : s ∈ added)
    (hs' : s' ∈ added) (hp : point ∈ p.points hash s) (hp' : point ∈ p.points hash s') : s = s' := by
  obtain ⟨v, hv, heq⟩ := mem_points_iff.mp hp
  obtain ⟨v', hv', heq'⟩ := mem_points_iff.mp hp'
  rw [h.vnodes] at hv hv'
  have hname := hinj ⟨s, hs, v, hv, rfl⟩ ⟨s', hs', v', hv', rfl⟩ (heq.trans heq'.symm)
  exact (vnodeName_inj hname).1

theorem OnRing.addShard (h : OnRing hash vnodes added p)
    (hinj : Set.InjOn hash (vnodeNames vnodes added)) {shard : Str} (hadded : shard ∈ added) :
    OnRing hash vnodes added (p.addShard hash shard) := by
  rw [Placement.addShard]
  split
  · exact h
  · rename_i hnew
    constructor
    case vnodes => exact h.vnodes
    case added =>
      intro s hs
      rcases Finset.mem_insert.mp hs with rfl | hs
      · exact hadded
      · exact h.added s hs
    case ring =>
      intro point s
      show (p.ring.insertAll ((p.points hash shard).map fun point => (point, shard))).get point =
        some s ↔ s ∈ insert shard p.shards ∧ point ∈ p.points hash s
      rw [SortedMap.get_insertAll_const, Finset.mem_insert]
      split
      · rename_i hpoint
        constructor
        · intro hs
          obtain rfl := Option.some.inj hs
          exact ⟨Or.inl rfl, hpoint⟩
        · intro ⟨hs, hpoint'⟩
          have hs : s ∈ added := by
            rcases hs with rfl | hs
            · exact hadded
            · exact h.added s hs
          rw [h.eq_of_mem_points hinj hadded hs hpoint hpoint']
      · rename_i hpoint
        rw [h.ring]
        constructor
        · intro ⟨hs, hpoint'⟩
          exact ⟨Or.inr hs, hpoint'⟩
        · intro ⟨hs, hpoint'⟩
          rcases hs with rfl | hs
          · exact absurd hpoint' hpoint
          · exact ⟨hs, hpoint'⟩

theorem OnRing.removeShard (h : OnRing hash vnodes added p) (shard : Str) :
    OnRing hash vnodes added (p.removeShard shard) := by
  rw [Placement.removeShard]
  split
  · constructor
    case vnodes => exact h.vnodes
    case added =>
      intro s hs
      exact h.added s (Finset.mem_of_mem_erase hs)
    case ring =>
      intro point s
      show (p.ring.filter fun _ owner => owner ≠ shard).get point = some s ↔
        s ∈ p.shards.erase shard ∧ point ∈ p.points hash s
      rw [SortedMap.get_filter, Option.filter_eq_some_iff, h.ring, Finset.mem_erase,
        decide_eq_true_iff]
      exact ⟨fun ⟨⟨hs, hpoint⟩, hne⟩ => ⟨⟨hne, hs⟩, hpoint⟩,
        fun ⟨⟨hne, hs⟩, hpoint⟩ => ⟨⟨hs, hpoint⟩, hne⟩⟩
  · exact h

theorem OnRing.along_run {ops : List ShardOp} (h : OnRing hash vnodes added p)
    (hinj : Set.InjOn hash (vnodeNames vnodes added)) (hops : ∀ s ∈ addedShards ops, s ∈ added) :
    OnRing hash vnodes added (run (shardStep hash) p ops) := by
  induction ops generalizing p with
  | nil => exact h
  | cons op ops ih =>
      cases op with
      | add shard =>
          have hadd := h.addShard hinj (hops shard (List.mem_cons_self))
          exact ih hadd fun s hs => hops s (List.mem_cons_of_mem shard hs)
      | remove shard => exact ih (h.removeShard shard) hops

/-- Rings of the same shards are equal. -/
theorem OnRing.ring_eq (hp : OnRing hash vnodes added p) (hq : OnRing hash vnodes added q)
    (hshards : p.shards = q.shards) : p.ring = q.ring := by
  have hpoints (shard : Str) : p.points hash shard = q.points hash shard := by
    rw [Placement.points, Placement.points, hp.vnodes, hq.vnodes]
  apply SortedMap.ext_get
  intro point
  apply Option.ext
  intro shard
  rw [hp.ring, hq.ring, hshards, hpoints]

/-- A room has an owner exactly when there is a shard. -/
theorem OnRing.isSome_iff (h : OnRing hash vnodes added p) (room : RoomId) :
    (p.shardFor hash room).isSome ↔ p.shards.Nonempty := by
  rw [← Option.ne_none_iff_isSome, Ne, shardFor_eq_none_iff]
  constructor
  · intro hne
    by_contra hempty
    apply hne
    intro point
    apply Option.eq_none_iff_forall_ne_some.mpr
    intro shard hget
    exact hempty ⟨shard, ((h.ring point shard).mp hget).1⟩
  · intro ⟨shard, hshard⟩ hnone
    have hpos : 0 < p.vnodes.toNat := by
      rw [h.vnodes]
      show 0 < (if vnodes ≤ 1 then 1 else vnodes : UInt32).toNat
      split
      · decide
      · rename_i hmore
        have hlt : ¬ vnodes.toNat ≤ 1 := fun hle => hmore (UInt32.le_iff_toNat_le.mpr hle)
        omega
    have hpoint : hash (vnodeName shard 0) ∈ p.points hash shard :=
      mem_points_iff.mpr ⟨0, hpos, rfl⟩
    have hget := (h.ring _ shard).mpr ⟨hshard, hpoint⟩
    rw [hnone] at hget
    cases hget

end

namespace SampleShards

/-- The sum of the characters. -/
def charSum (s : Str) : Point := Fin.ofNat _ (s.map Char.toNat).sum

def room : RoomId := ⟨"!r:x", valid_room⟩

/-- Two shards are added, and one is drained and comes back. -/
def drained : List ShardOp := [.add "a", .add "b", .remove "a", .add "a"]

def direct : List ShardOp := [.add "b", .add "a"]

end SampleShards

end GaussMatrix.Shard
