import MicroRaft.Node.Step

/-!
# A group of nodes

Nodes with durable storage and a network that loses, repeats, delays and
reorders.  A node takes one input at a time and its batch of effects is executed
in order; a crash may cut the execution after any effect.  What comes back after
a crash is `restoreWithSnapshot` of what the executed effects wrote.

* `Disk`: the durable state of one node and what effects do to it.
* `Group`: how the nodes of a group are built, first and after a crash.
* `Cluster`: running nodes, disks, and every effect executed so far.
* `Cluster.Next`: one event of the system.

Two components of a cluster are never read by the code.  `compacted` remembers
the entries below each node's snapshot boundary and `images` the entries every
published image stands for; they give the words "compacted prefix" and "the
prefix the image was published for" a meaning.
-/

namespace MicroRaft

/-! ## Durable storage -/

/-- The durable state of one node. -/
structure Disk where
  hard : HardState := {}
  snapshot : Option SnapshotDescriptor := none
  log : List Entry := []
  deriving DecidableEq

/-- The log below a truncation point. -/
def cutLog (log : List Entry) : Option Nat → List Entry
  | none => log
  | some index => log.filter fun e => e.index < index

/-- What executing one effect writes. -/
def Disk.execute (d : Disk) : Effect → Disk
  | .persistHardState hard => { d with hard }
  | .persistLogEntries truncateFrom entries =>
      { d with log := cutLog d.log truncateFrom ++ entries }
  | .publishSnapshot _ descriptor retained =>
      { d with snapshot := some descriptor, log := retained }
  | _ => d

def Disk.snapshotIndex (d : Disk) : Nat := d.snapshot.elim 0 fun s => s.metadata.lastIncludedIndex

/-! ## Groups -/

/-- A group is named by its voters, and an explicit one also by its identity. -/
inductive Group where
  | fixed (voters : List NodeId)
  | explicit (groupId : String) (voters : List NodeId)

namespace Group

/-- The membership every node of the group starts from. -/
def genesis : Group → Except String CommittedMembership
  | .fixed voters => CommittedMembership.bootstrap voters
  | .explicit groupId voters =>
      if groupId = legacyGroupId then .error "explicit group required"
      else CommittedMembership.bootstrapWithGroup groupId voters

/-- A first start, with the effects of the bootstrap. -/
inductive Starts : Group → NodeId → RaftNode → List Effect → Prop
  | fixed {voters peers : List NodeId} {id : NodeId} {seed : Nat} {n : RaftNode}
      (hvoters : (peers ++ [id]).insertionSort (· ≤ ·) = voters)
      (hnew : RaftNode.new id peers seed = some n) : Starts (.fixed voters) id n []
  | explicit {groupId : String} {voters : List NodeId} {id : NodeId} {seed : Nat} {n : RaftNode}
      {es : List Effect} (hnew : RaftNode.newForGroup id voters seed groupId = some (.ok (n, es))) :
      Starts (.explicit groupId voters) id n es

/-- The peers a node may be restored with: in a fixed group they name the voters again, in
an explicit group the durable membership does. -/
def PeersFit : Group → NodeId → List NodeId → Prop
  | .fixed voters, id, peers => (peers ++ [id]).insertionSort (· ≤ ·) = voters
  | .explicit .., _, _ => True

end Group

/-! ## The cluster -/

structure Cluster where
  /-- The running nodes. -/
  up : NodeId → Option RaftNode
  /-- The disks of the nodes that were ever started. -/
  disk : NodeId → Option Disk
  /-- Every effect executed so far, in order, with the node that executed it. -/
  trace : List (NodeId × Effect)
  /-- The entries below each node's snapshot boundary. -/
  compacted : NodeId → List Entry
  /-- The entries every published image stands for. -/
  images : List (SnapshotDescriptor × List Entry)

namespace Cluster

/-- Nothing has been started. -/
def empty : Cluster where
  up _ := none
  disk _ := none
  trace := []
  compacted _ := []
  images := []

variable (σ : Cluster)

/-- The message was put on the wire at some point. -/
def Sent (sender dest : NodeId) (msg : RaftMessage) : Prop := (sender, .send dest msg) ∈ σ.trace

/-- The log in memory of a running node as it would be if nothing were ever compacted. -/
def memory (id : NodeId) (n : RaftNode) : List Entry :=
  (σ.compacted id).take n.snapshotIndex ++ n.log

/-- The entries an image stands for. -/
def imageOf (descriptor : SnapshotDescriptor) : List Entry :=
  (σ.images.find? fun x => x.1 = descriptor).elim [] Prod.snd

/-- The entries a local compaction removes, together with those removed before. -/
def compactedTo (id : NodeId) (boundary : Nat) : List Entry :=
  σ.compacted id ++
    (σ.disk id).elim [] fun d => d.log.take (boundary - d.snapshotIndex)

/-- What `compacted` and `images` record of one effect. -/
def remember (id : NodeId) : Effect → Cluster
  | .publishSnapshot none descriptor _ =>
      let entries := σ.compactedTo id descriptor.metadata.lastIncludedIndex
      { σ with compacted := Function.update σ.compacted id entries
               images := σ.images ++ [(descriptor, entries)] }
  | .publishSnapshot (some _) descriptor _ =>
      { σ with compacted := Function.update σ.compacted id (σ.imageOf descriptor) }
  | _ => σ

/-- A node executes one effect. -/
def execute (id : NodeId) (e : Effect) : Cluster :=
  { σ.remember id e with
    disk := Function.update σ.disk id ((σ.disk id).map fun d => d.execute e)
    trace := σ.trace ++ [(id, e)] }

/-- A node executes a batch. -/
def executeAll (id : NodeId) (es : List Effect) : Cluster := es.foldl (fun σ e => σ.execute id e) σ

/-- The node runs with this state. -/
def run (id : NodeId) (n : RaftNode) : Cluster := { σ with up := Function.update σ.up id (some n) }

/-- The node is down. -/
def stop (id : NodeId) : Cluster := { σ with up := Function.update σ.up id none }

/-- The input is not a message nobody sent. -/
def Offers (id : NodeId) : Input → Prop
  | .message sender msg => σ.Sent sender id msg
  | _ => True

/-- The node's state machine has been given an entry of this index, or an image that ends
there. -/
def Applied (id : NodeId) (index : Nat) : Prop :=
  (∃ e, (id, .apply e) ∈ σ.trace ∧ e.index = index) ∨
    ∃ descriptor, (id, .applySnapshot descriptor) ∈ σ.trace ∧
      descriptor.metadata.lastIncludedIndex = index

/-- One event. -/
inductive Next (G : Group) : Cluster → Cluster → Prop
  /-- A node is started for the first time; until its bootstrap is durable it has no disk. -/
  | start {σ : Cluster} {id : NodeId} {n : RaftNode} {es : List Effect}
      (hnew : σ.disk id = none) (hstart : G.Starts id n es) :
      Next G σ
        (({ σ with disk := Function.update σ.disk id (some {}) }.executeAll id es).run id n)
  /-- A node takes an input and executes the whole batch. -/
  | take {σ : Cluster} {id : NodeId} {n n' : RaftNode} {input : Input} {es : List Effect}
      (hup : σ.up id = some n) (htakes : n.Takes input) (hoffers : σ.Offers id input)
      (hstep : n.step input = some (n', es)) : Next G σ ((σ.executeAll id es).run id n')
  /-- A node crashes after executing some of the batch. -/
  | crash {σ : Cluster} {id : NodeId} {n n' : RaftNode} {input : Input} {es : List Effect}
      {executed : Nat} (hup : σ.up id = some n) (htakes : n.Takes input)
      (hoffers : σ.Offers id input) (hstep : n.step input = some (n', es)) :
      Next G σ ((σ.executeAll id (es.take executed)).stop id)
  /-- A node goes down between inputs, or because a handler panics. -/
  | fail {σ : Cluster} {id : NodeId} : Next G σ (σ.stop id)
  /-- A node comes back from its disk. -/
  | restart {σ : Cluster} {id : NodeId} {d : Disk} {peers : List NodeId} {seed : Nat}
      {n : RaftNode} (hdown : σ.up id = none) (hdisk : σ.disk id = some d)
      (hpeers : G.PeersFit id peers)
      (hrestore : restoreWithSnapshot id peers seed d.hard d.snapshot d.log = some (.ok n)) :
      Next G σ (σ.run id n)
  /-- A node comes back and finds how far its state machine had got. -/
  | resume {σ : Cluster} {id : NodeId} {d : Disk} {peers : List NodeId} {seed : Nat}
      {n n' : RaftNode} {index term : Nat} (hdown : σ.up id = none) (hdisk : σ.disk id = some d)
      (hpeers : G.PeersFit id peers)
      (hrestore : restoreWithSnapshot id peers seed d.hard d.snapshot d.log = some (.ok n))
      (happlied : σ.Applied id index)
      (hwatermark : n.restoreAppliedWatermark index term = .ok n') : Next G σ (σ.run id n')

/-- Finitely many events. -/
abbrev Runs (G : Group) : Cluster → Cluster → Prop := Relation.ReflTransGen (Next G)

/-- A state of the system. -/
abbrev Reachable (G : Group) (σ : Cluster) : Prop := Runs G empty σ

end Cluster

end MicroRaft
