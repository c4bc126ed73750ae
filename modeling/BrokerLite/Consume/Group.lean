/-
# Consume.Group -- consumer groups and their rebalance

A `ConsumerGroup` keeps its members by consumer id, as references into the table
of consumer objects, and the partitions of the topics it is subscribed to.
Every change of either redistributes all partitions among the members: `range`
hands out contiguous pieces, `roundRobin` deals the partitions in turn, `sticky`
is `range`.

Both loops are shown to be one and the same thing, `assignEach held`, for a
function `held` that divides the partitions evenly (`assignRange_eq`,
`assignRoundRobin_eq`).  `rebalance_spec` is all that the rest of the
development uses about a rebalance.
-/
import BrokerLite.Consume.Consumer
import BrokerLite.Theory.FairDivision

namespace BrokerLite

open Theory

set_option autoImplicit false

abbrev ConsumerRef := ℕ

/-- The objects a group works on: the store and the consumers. -/
structure Objects extends Store where
  consumers : ConsumerRef → Consumer

namespace Objects

def modifyConsumer (o : Objects) (c : ConsumerRef) (f : Consumer → Consumer) : Objects :=
  { o with consumers := Function.update o.consumers c (f (o.consumers c)) }

def assign (o : Objects) (c : ConsumerRef) (assigned : List PartitionRef) : Objects :=
  o.modifyConsumer c fun consumer => consumer.assign o.partitions assigned

def revoke (o : Objects) (c : ConsumerRef) : Objects := o.modifyConsumer c Consumer.revoke

def idOf (o : Objects) (c : ConsumerRef) : String := (o.consumers c).consumerId

@[simp] theorem modifyConsumer_toStore (o : Objects) (c : ConsumerRef) (f : Consumer → Consumer) :
    (o.modifyConsumer c f).toStore = o.toStore := rfl

theorem modifyConsumer_consumers (o : Objects) (c d : ConsumerRef) (f : Consumer → Consumer) :
    (o.modifyConsumer c f).consumers d = if d = c then f (o.consumers c) else o.consumers d := by
  simp [modifyConsumer, Function.update_apply]

end Objects

inductive AssignmentStrategy where
  | range
  | roundRobin
  | sticky

structure ConsumerGroup where
  groupId : String
  strategy : AssignmentStrategy := .range
  members : Dict String ConsumerRef := .empty
  subscribedTopics : Dict String (List PartitionRef) := .empty
  generation : ℕ := 0

namespace ConsumerGroup

/-- The partitions of all subscribed topics, in subscription order. -/
def allPartitions (g : ConsumerGroup) : List PartitionRef := g.subscribedTopics.values.flatten

def revokeAll : List ConsumerRef → Objects → Objects
  | [], o => o
  | c :: rest, o => revokeAll rest (o.revoke c)

/-- The loop of `_assign_range`, at member number `i` and partition `idx`. -/
def assignRangeLoop (partitionsPer remainder : ℕ) (partitions : List PartitionRef) :
    List ConsumerRef → ℕ → ℕ → Objects → Objects
  | [], _, _, o => o
  | c :: rest, i, idx, o =>
      let count := partitionsPer + if i < remainder then 1 else 0
      assignRangeLoop partitionsPer remainder partitions rest (i + 1) (idx + count)
        (o.assign c ((partitions.drop idx).take count))

def assignRange (members : List ConsumerRef) (partitions : List PartitionRef) (o : Objects) :
    Objects :=
  assignRangeLoop (partitions.length / members.length) (partitions.length % members.length)
    partitions members 0 0 o

/-- Give every member in turn what `held` says. -/
def assignEach (held : ConsumerRef → List PartitionRef) : List ConsumerRef → Objects → Objects
  | [], o => o
  | c :: rest, o => assignEach held rest (o.assign c (held c))

/-- The table `_assign_round_robin` fills, by consumer id. -/
def roundRobinTable (o : Objects) (members : List ConsumerRef) (partitions : List PartitionRef) :
    Dict String (List PartitionRef) :=
  let blank := members.foldl (fun table c => table.set (o.idOf c) []) Dict.empty
  partitions.zipIdx.foldl (fun table entry =>
    match members[entry.2 % members.length]? with
    | none => table
    | some c => table.set (o.idOf c) (table.getD (o.idOf c) [] ++ [entry.1])) blank

def assignRoundRobin (members : List ConsumerRef) (partitions : List PartitionRef) (o : Objects) :
    Objects :=
  assignEach (fun c => (roundRobinTable o members partitions).getD (o.idOf c) []) members o

/-- The end of `_rebalance`: the configured strategy hands out the partitions. -/
def distribute (strategy : AssignmentStrategy) (members : List ConsumerRef)
    (partitions : List PartitionRef) (o : Objects) : Objects :=
  match strategy with
  | .range => assignRange members partitions o
  | .roundRobin => assignRoundRobin members partitions o
  | .sticky => assignRange members partitions o

def rebalance (o : Objects) (g : ConsumerGroup) : Objects × ConsumerGroup :=
  if g.members.length = 0 then (o, g)
  else
    let revoked := revokeAll g.members.values o
    (if g.allPartitions = [] then revoked
      else distribute g.strategy g.members.values g.allPartitions revoked,
      { g with generation := g.generation + 1 })

def join (o : Objects) (g : ConsumerGroup) (c : ConsumerRef) : Objects × ConsumerGroup :=
  rebalance
    (o.modifyConsumer c fun consumer =>
      { consumer with config := { consumer.config with groupId := g.groupId } })
    { g with members := g.members.set (o.idOf c) c }

def leave (o : Objects) (g : ConsumerGroup) (consumerId : String) :
    Option ConsumerRef × Objects × ConsumerGroup :=
  match g.members.get? consumerId with
  | none => (none, o, g)
  | some c => (some c, rebalance (o.revoke c) { g with members := g.members.erase consumerId })

def subscribe (o : Objects) (g : ConsumerGroup) (topicName : String) (partitions : List PartitionRef) :
    Objects × ConsumerGroup :=
  rebalance o { g with subscribedTopics := g.subscribedTopics.set topicName partitions }

def unsubscribe (o : Objects) (g : ConsumerGroup) (topicName : String) : Objects × ConsumerGroup :=
  rebalance o { g with subscribedTopics := g.subscribedTopics.erase topicName }

/-- The ids of the members that are dead, each judged at its own clock reading. -/
def deadMembers (now : String → Timestamp) (o : Objects) (g : ConsumerGroup) : List String :=
  (g.members.entries.filter fun member => !(o.consumers member.2).isAlive (now member.1)).map Prod.fst

/-- The loop of `remove_dead_members`: pop and revoke. -/
def popDead : List String → Objects → ConsumerGroup → Objects × ConsumerGroup
  | [], o, g => (o, g)
  | consumerId :: rest, o, g =>
      match g.members.get? consumerId with
      | none => popDead rest o g
      | some c => popDead rest (o.revoke c) { g with members := g.members.erase consumerId }

def removeDeadMembers (now : String → Timestamp) (o : Objects) (g : ConsumerGroup) :
    List String × Objects × ConsumerGroup :=
  let dead := deadMembers now o g
  let popped := popDead dead o g
  if dead = [] then (dead, popped) else (dead, rebalance popped.1 popped.2)

/-! ## What the loops do -/

/-- Every member is registered under its own id. -/
def Keyed (o : Objects) (g : ConsumerGroup) : Prop :=
  ∀ id c, g.members.get? id = some c → o.idOf c = id

theorem Keyed.map_ids {o : Objects} {g : ConsumerGroup} (keyed : g.Keyed o) :
    g.members.values.map o.idOf = g.members.keys := by
  rw [Dict.values, Dict.keys, List.map_map]
  exact List.map_congr_left fun member entry => keyed _ _ (Dict.get?_eq_some_iff.mpr entry)

theorem Keyed.ids_nodup {o : Objects} {g : ConsumerGroup} (keyed : g.Keyed o) :
    (g.members.values.map o.idOf).Nodup := by
  rw [keyed.map_ids]
  exact g.members.keys_nodup

section Loops

variable (held : ConsumerRef → List PartitionRef) (members : List ConsumerRef) (o : Objects)

@[simp] theorem revokeAll_toStore : (revokeAll members o).toStore = o.toStore := by
  induction members generalizing o with
  | nil => rfl
  | cons c rest ih => exact ih (o.revoke c)

theorem revokeAll_consumers (d : ConsumerRef) : (revokeAll members o).consumers d =
    if d ∈ members then (o.consumers d).revoke else o.consumers d := by
  induction members generalizing o with
  | nil => rfl
  | cons c rest ih =>
      rw [revokeAll, ih, Objects.revoke, Objects.modifyConsumer_consumers]
      by_cases here : d = c
      · subst here
        simp [Consumer.revoke]
      · simp [here]

@[simp] theorem assignEach_toStore : (assignEach held members o).toStore = o.toStore := by
  induction members generalizing o with
  | nil => rfl
  | cons c rest ih => exact ih (o.assign c (held c))

theorem assignEach_consumers (nodup : members.Nodup) (d : ConsumerRef) :
    (assignEach held members o).consumers d =
      if d ∈ members then (o.consumers d).assign o.partitions (held d) else o.consumers d := by
  induction members generalizing o with
  | nil => rfl
  | cons c rest ih =>
      obtain ⟨absent, nodup⟩ := List.nodup_cons.mp nodup
      rw [assignEach, ih _ nodup, Objects.assign, Objects.modifyConsumer_consumers]
      by_cases here : d = c
      · subst here
        simp [absent]
      · simp [here]

end Loops

/-- The index arithmetic of the range loop cuts the partitions into pieces. -/
theorem assignRangeLoop_eq {partitionsPer remainder : ℕ} {partitions : List PartitionRef}
    {held : ConsumerRef → List PartitionRef} (members : List ConsumerRef) (i idx : ℕ) (o : Objects)
    (pieces : members.map held = cut ((List.range' i members.length).map fun j =>
      partitionsPer + if j < remainder then 1 else 0) (partitions.drop idx)) :
    assignRangeLoop partitionsPer remainder partitions members i idx o =
      assignEach held members o := by
  induction members generalizing i idx o with
  | nil => rfl
  | cons c rest ih =>
      rw [List.length_cons, List.range'_succ, List.map_cons, List.map_cons, cut, List.cons.injEq,
        List.drop_drop] at pieces
      rw [assignRangeLoop, assignEach, pieces.1, ih _ _ _ pieces.2]

/-- Lists of one length are the values of a function on distinct arguments. -/
theorem exists_held {members : List ConsumerRef} (nodup : members.Nodup)
    {pieces : List (List PartitionRef)} (length : members.length = pieces.length) :
    ∃ held : ConsumerRef → List PartitionRef, members.map held = pieces := by
  induction members generalizing pieces with
  | nil => exact ⟨fun _ => [], (List.length_eq_zero_iff.mp length.symm).symm⟩
  | cons c rest ih =>
      obtain ⟨absent, nodup⟩ := List.nodup_cons.mp nodup
      match pieces, length with
      | piece :: pieces, length =>
          obtain ⟨held, values⟩ := ih nodup (Nat.succ.inj length)
          refine ⟨Function.update held c piece, ?_⟩
          rw [List.map_cons, Function.update_self, ← values]
          refine congrArg _ (List.map_congr_left fun d member => ?_)
          have other : d ≠ c := fun same => absent (same ▸ member)
          exact Function.update_of_ne other ..

section Division

variable {members : List ConsumerRef} {partitions : List PartitionRef} {o : Objects}

/-- The range loop hands out the pieces, whatever is stored. -/
theorem assignRange_pieces (nodup : members.Nodup) (partitions : List PartitionRef) :
    ∃ held : ConsumerRef → List PartitionRef,
      members.map held = cut (shares partitions.length members.length) partitions ∧
        ∀ o, assignRange members partitions o = assignEach held members o := by
  have length : members.length = (cut (shares partitions.length members.length) partitions).length := by
    simp [shares]
  obtain ⟨held, pieces⟩ := exists_held nodup length
  refine ⟨held, pieces, fun o => assignRangeLoop_eq members 0 0 o ?_⟩
  rw [pieces, shares, List.range_eq_range', List.drop_zero]
  rfl

theorem assignRange_eq (nonempty : 0 < members.length) (nodup : members.Nodup) :
    ∃ held, Divided members held partitions ∧
      assignRange members partitions o = assignEach held members o := by
  obtain ⟨held, pieces, handed⟩ := assignRange_pieces nodup partitions
  exact ⟨held, divided_of_cut nonempty pieces, handed o⟩

theorem getD_blank (ids : List ConsumerRef) (table : Dict String (List PartitionRef))
    (blank : ∀ id, table.getD id [] = []) (id : String) :
    (ids.foldl (fun table c => table.set (o.idOf c) []) table).getD id [] = [] := by
  induction ids generalizing table with
  | nil => exact blank id
  | cons c rest ih =>
      refine ih _ fun id => ?_
      by_cases same : id = o.idOf c
      · rw [same, Dict.getD_set_self]
      · rw [Dict.getD_set_of_ne _ same, blank]

/-- The table holds what dealing in turn gives. -/
theorem roundRobinTable_getD (ids : (members.map o.idOf).Nodup) {j : ℕ} (inside : j < members.length) :
    (roundRobinTable o members partitions).getD (o.idOf members[j]) [] =
      deal members.length partitions j := by
  have pos : 0 < members.length := by omega
  induction partitions using List.reverseRecOn with
  | nil => exact getD_blank _ _ (fun _ => rfl) _
  | append_singleton partitions p ih =>
      have turn := Nat.mod_lt partitions.length pos
      rw [deal_append_single, ← ih]
      simp only [roundRobinTable, List.zipIdx_append, List.foldl_append, List.zipIdx_singleton,
        List.foldl_cons, List.foldl_nil, Nat.zero_add, List.getElem?_eq_getElem turn]
      by_cases here : partitions.length % members.length = j
      · subst here
        rw [if_pos rfl, Dict.getD_set_self]
      · have other : o.idOf members[j] ≠ o.idOf members[partitions.length % members.length] := by
          intro same
          have one := List.inj_on_of_nodup_map ids (List.getElem_mem inside) (List.getElem_mem turn) same
          exact here ((ids.of_map.getElem_inj_iff).mp one).symm
        rw [if_neg here, Dict.getD_set_of_ne _ other, List.append_nil]

theorem assignRoundRobin_eq (nonempty : 0 < members.length) (ids : (members.map o.idOf).Nodup) :
    ∃ held, Divided members held partitions ∧
      assignRoundRobin members partitions o = assignEach held members o := by
  refine ⟨_, divided_of_deal nonempty ?_, rfl⟩
  refine List.ext_getElem (by simp) fun j inside _ => ?_
  rw [List.length_map] at inside
  simpa using roundRobinTable_getD ids inside

theorem distribute_eq (strategy : AssignmentStrategy) (partitions : List PartitionRef)
    (nonempty : 0 < members.length)
    (ids : (members.map o.idOf).Nodup) :
    ∃ held, Divided members held partitions ∧
      distribute strategy members partitions o = assignEach held members o := by
  cases strategy with
  | range => exact assignRange_eq nonempty ids.of_map
  | roundRobin => exact assignRoundRobin_eq nonempty ids
  | sticky => exact assignRange_eq nonempty ids.of_map

/-- Who is handed what does not depend on positions or on what is stored. -/
theorem distribute_congr {o' : Objects} (same : o'.idOf = o.idOf) (strategy : AssignmentStrategy)
    (partitions : List PartitionRef) (nodup : members.Nodup) :
    ∃ held, distribute strategy members partitions o = assignEach held members o ∧
      distribute strategy members partitions o' = assignEach held members o' := by
  have range : ∃ held, assignRange members partitions o = assignEach held members o ∧
      assignRange members partitions o' = assignEach held members o' := by
    obtain ⟨held, -, handed⟩ := assignRange_pieces nodup partitions
    exact ⟨held, handed o, handed o'⟩
  cases strategy with
  | range => exact range
  | roundRobin =>
      refine ⟨fun c => (roundRobinTable o members partitions).getD (o.idOf c) [], rfl, ?_⟩
      have table : roundRobinTable o' members partitions = roundRobinTable o members partitions := by
        simp only [roundRobinTable, same]
      simp only [distribute, assignRoundRobin, table, same]
  | sticky => exact range

end Division

/-! ## What a rebalance does -/

theorem rebalance_of_empty (o : Objects) {g : ConsumerGroup} (empty : g.members.length = 0) :
    rebalance o g = (o, g) := if_pos empty

/-- What a rebalance leaves of the group: only the generation changes. -/
theorem rebalance_group (o : Objects) (g : ConsumerGroup) :
    (rebalance o g).2.groupId = g.groupId ∧ (rebalance o g).2.strategy = g.strategy ∧
      (rebalance o g).2.members = g.members ∧
      (rebalance o g).2.subscribedTopics = g.subscribedTopics := by
  unfold rebalance
  split <;> exact ⟨rfl, rfl, rfl, rfl⟩

/-- **A rebalance divides all partitions evenly among the members** and leaves
everything else alone: each member is assigned its holding, the other consumers
and the store are as before. -/
theorem rebalance_spec {o : Objects} {g : ConsumerGroup} (keyed : g.Keyed o)
    (nonempty : 0 < g.members.length) :
    (rebalance o g).1.toStore = o.toStore ∧
    ∃ held, Divided g.members.values held g.allPartitions ∧ ∀ c, (rebalance o g).1.consumers c =
      if c ∈ g.members.values then (o.consumers c).assign o.partitions (held c)
      else o.consumers c := by
  have ids := keyed.ids_nodup
  have same : (revokeAll g.members.values o).idOf = o.idOf := by
    funext c
    rw [Objects.idOf, revokeAll_consumers]
    split <;> rfl
  rw [rebalance, if_neg (by omega)]
  by_cases nothing : g.allPartitions = []
  · have divided : Divided g.members.values (fun _ => ([] : List PartitionRef)) g.allPartitions :=
      ⟨by simp [nothing], by simp⟩
    simp only [if_pos nothing]
    refine ⟨revokeAll_toStore .., _, divided, fun c => ?_⟩
    rw [revokeAll_consumers]
    split <;> rfl
  · obtain ⟨held, divided, handed⟩ := distribute_eq g.strategy g.allPartitions
      (by rwa [Dict.length_values]) (same ▸ ids)
    simp only [if_neg nothing, handed]
    refine ⟨by simp, held, divided, fun c => ?_⟩
    rw [assignEach_consumers _ _ _ ids.of_map, revokeAll_consumers, revokeAll_toStore]
    split <;> rfl

/-! ## Leaving and dying -/

theorem leave_cases (o : Objects) (g : ConsumerGroup) (consumerId : String) :
    leave o g consumerId = (none, o, g) ∨ ∃ c, g.members.get? consumerId = some c ∧
      leave o g consumerId =
        (some c, rebalance (o.revoke c) { g with members := g.members.erase consumerId }) := by
  cases found : g.members.get? consumerId with
  | none => exact .inl (by simp [leave, found])
  | some c => exact .inr ⟨c, rfl, by simp [leave, found]⟩

theorem removeDeadMembers_cases (now : String → Timestamp) (o : Objects) (g : ConsumerGroup) :
    removeDeadMembers now o g = ([], o, g) ∨
      removeDeadMembers now o g = (deadMembers now o g,
        rebalance (popDead (deadMembers now o g) o g).1 (popDead (deadMembers now o g) o g).2) := by
  by_cases none_ : deadMembers now o g = []
  · exact .inl (by simp [removeDeadMembers, none_, popDead])
  · exact .inr (by simp [removeDeadMembers, none_])

end ConsumerGroup

end BrokerLite
