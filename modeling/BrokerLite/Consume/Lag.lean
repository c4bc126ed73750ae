/-
# Consume.Lag -- what a group reports as its lag

`consumer_lag` goes through the members and adds up, for each, how far the offsets
that the group has committed are behind in the partitions it holds.  The members
divide the subscribed partitions among them, so the total is that of the partitions
themselves (`Shared.totalLag_eq`), whoever holds them.

Between the operations of the group others append to the partitions, commit in them
and clean them up: `elsewhere` changes the store in any way at all.
-/
import BrokerLite.Consume.GroupRun
import BrokerLite.Server.Snapshot

namespace BrokerLite

open Theory

set_option autoImplicit false

namespace ConsumerGroup

variable {o : Objects} {g : ConsumerGroup}

/-- The lag of each member, in the order of the members. -/
theorem Keyed.consumerLag_values (keyed : g.Keyed o) : (g.consumerLag o).values =
    g.members.values.map fun c =>
      ((o.consumers c).assignedPartitions.map fun p => o.consumerLag p g.groupId).sum := by
  have entries := Dict.entries_foldl_set o.idOf (d := .empty) (fun c =>
    ((o.consumers c).assignedPartitions.foldl (fun total p => total + o.consumerLag p g.groupId) 0))
    keyed.ids_nodup nofun
  rw [Dict.values, consumerLag, entries, Dict.entries_empty, List.nil_append, List.map_map]
  apply List.map_congr_left
  intro c _
  show List.foldl _ 0 _ = _
  rw [List.sum_eq_foldl, List.foldl_map]

end ConsumerGroup

inductive LagOp where
  | group (op : GroupOp)
  | elsewhere (change : Store → Store)

namespace GroupRun

def stepBeside (r : GroupRun) : LagOp → GroupRun
  | .group op => r.step op
  | .elsewhere change =>
      { r with objects := { r.objects with toStore := change r.objects.toStore } }

/-- How far the group is behind in all it is subscribed to. -/
def behind (r : GroupRun) : ℤ :=
  (r.group.allPartitions.map fun p =>
    max 0 ((r.objects.partitions p).nextOffset -
      (r.objects.partitions p).getCommittedOffset r.group.groupId)).sum

/-- Two groups with one id that are subscribed to the same partitions, in any
order, which have got as far and in which as much is committed. -/
structure Alike (r r' : GroupRun) : Prop where
  groupId : r'.group.groupId = r.group.groupId
  subscribed : r'.group.allPartitions.Perm r.group.allPartitions
  nextOffset : ∀ p ∈ r.group.allPartitions,
    (r'.objects.partitions p).nextOffset = (r.objects.partitions p).nextOffset
  committed : ∀ p ∈ r.group.allPartitions,
    (r'.objects.partitions p).getCommittedOffset r.group.groupId =
      (r.objects.partitions p).getCommittedOffset r.group.groupId

variable {r r' : GroupRun}

theorem Shared.stepBeside (shared : r.Shared) (op : LagOp) : (r.stepBeside op).Shared := by
  cases op with
  | group op => exact shared.step op
  | elsewhere change => exact shared.congr ⟨rfl, fun _ => rfl⟩

theorem Shared.totalLag_eq (shared : r.Shared) (nonempty : 0 < r.group.members.length) :
    r.group.totalLag r.objects = r.behind := by
  have summed := (shared.divided nonempty).sum_map fun p => r.objects.consumerLag p r.group.groupId
  rw [ConsumerGroup.totalLag, ← List.sum_eq_foldl, shared.keyed.consumerLag_values]
  exact summed

theorem Alike.behind_eq (alike : r.Alike r') : r'.behind = r.behind := by
  rw [behind, behind, (alike.subscribed.map _).sum_eq, alike.groupId]
  congr 1
  apply List.map_congr_left
  intro p member
  rw [alike.nextOffset p member, alike.committed p member]

/-- **Group lag does not depend on who holds what.**  In every state a new group
reaches, with at least one member, the total lag is how far the group is behind in
the subscribed partitions; and a group that is like it, whatever its strategy, its
members and its history, reports the same. -/
theorem run_totalLag (fresh : r.group.members = .empty) (ops : List LagOp)
    (nonempty : 0 < (run stepBeside r ops).group.members.length) :
    let after := run stepBeside r ops
    after.group.totalLag after.objects = after.behind ∧
      ∀ (r' : GroupRun) (ops' : List LagOp), r'.group.members = .empty →
        let after' := run stepBeside r' ops'
        0 < after'.group.members.length → after.Alike after' →
          after'.group.totalLag after'.objects = after.group.totalLag after.objects := by
  have preserved : ∀ r op, Shared r → Shared (r.stepBeside op) := fun _ op shared => shared.stepBeside op
  have reached : ∀ (r : GroupRun) (ops : List LagOp), r.group.members = .empty →
      (run stepBeside r ops).Shared := fun r ops fresh =>
    run_preserves preserved (shared_of_new fresh) ops
  have total := (reached r ops fresh).totalLag_eq nonempty
  refine ⟨total, ?_⟩
  intro r' ops' fresh' after' nonempty' alike
  rw [total, (reached r' ops' fresh').totalLag_eq nonempty', alike.behind_eq]

/-- Two consumers share three partitions; two messages arrive and one is committed. -/
def sharedOps : List LagOp :=
  [.group (.join 0), .group (.subscribe "t" [0, 1, 2]), .group (.join 1),
    .group (.log (.append 0 1 0)), .group (.log (.append 0 1 1)),
    .elsewhere fun s => s.modifyPartition 1 fun p =>
      { p with committedOffsets := p.committedOffsets.set "g" 1 }]

example : let after := run stepBeside ⟨threeConsumers, { groupId := "g" }⟩ sharedOps
    after.behind = 1 := by decide +kernel

theorem sharedOps_totalLag :
    let after := run stepBeside ⟨threeConsumers, { groupId := "g" }⟩ sharedOps
    after.group.totalLag after.objects = after.behind ∧
      ∀ (r' : GroupRun) (ops' : List LagOp), r'.group.members = .empty →
        let after' := run stepBeside r' ops'
        0 < after'.group.members.length → after.Alike after' →
          after'.group.totalLag after'.objects = after.group.totalLag after.objects :=
  run_totalLag rfl sharedOps (by decide +kernel)

end GroupRun

end BrokerLite
