import MicroRaft.Cluster.Boundary

/-!
# The cluster follows the abstract protocol

A move of one running node, executed on the cluster, is matched by moves of the
same node in the abstract protocol (`Related.step`).
-/

namespace MicroRaft

open Consensus Function

variable {g : CommittedMembership} {a a' : Abstract} {σ σ' : Cluster} {id : NodeId}
  {n n' : RaftNode} {d d' : Disk} {c : Cause} {es : List Effect}

/-! ## Executing effects -/

theorem execute_sealed (g : CommittedMembership) (d : Disk) (e : Effect) :
    d.execute (sealed g e) = d.execute e := by
  cases e <;> rfl

theorem Cluster.remember_of_not_publish {e : Effect} (he : e.isPublish = false) :
    σ.remember id e = σ := by
  cases e with
  | publishSnapshot => cases he
  | _ => rfl

namespace Cluster

theorem executeAll_append (σ : Cluster) (id : NodeId) (es es' : List Effect) :
    σ.executeAll id (es ++ es') = (σ.executeAll id es).executeAll id es' :=
  List.foldl_append

/-- Running nodes are not touched by effects. -/
theorem execute_run (σ : Cluster) (id : NodeId) (e : Effect) (n : RaftNode) :
    (σ.run id n).execute id e = (σ.execute id e).run id n := by
  cases e with
  | publishSnapshot transfer => cases transfer <;> rfl
  | _ => rfl

theorem executeAll_run (σ : Cluster) (id : NodeId) (es : List Effect) (n : RaftNode) :
    (σ.run id n).executeAll id es = (σ.executeAll id es).run id n := by
  induction es generalizing σ with
  | nil => rfl
  | cons e es ih =>
    show ((σ.run id n).execute id e).executeAll id es = _
    rw [execute_run, ih]
    rfl

@[simp] theorem run_up (σ : Cluster) (id : NodeId) (n : RaftNode) :
    (σ.run id n).up id = some n :=
  update_self ..

theorem run_run (σ : Cluster) (id : NodeId) (n n' : RaftNode) :
    (σ.run id n).run id n' = σ.run id n' := by
  simp [run, update_idem]

/-- What executing effects that publish nothing comes to. -/
theorem executeAll_quiet (hdisk : σ.disk id = some d) (hes : ∀ e ∈ es, e.isPublish = false) :
    σ.executeAll id es = { σ with
      disk := update σ.disk id (some (es.foldl Disk.execute d))
      trace := σ.trace ++ es.map fun e => (id, e) } := by
  induction es generalizing σ d with
  | nil =>
    show σ = _
    simp [← hdisk]
  | cons e es ih =>
    have hexec : σ.execute id e = { σ with
        disk := update σ.disk id (some (d.execute e)), trace := σ.trace ++ [(id, e)] } := by
      rw [execute, remember_of_not_publish (hes e (List.mem_cons_self ..)), hdisk]
      rfl
    show (σ.execute id e).executeAll id es = _
    rw [ih (d := d.execute e) (by rw [hexec]; exact update_self ..)
      fun x hx => hes x (List.mem_cons_of_mem _ hx), hexec]
    simp

end Cluster

/-! ## Putting the relation together -/

/-- What a change at one node has to establish for the whole cluster. -/
theorem Related.change (h : Related g a σ) (d' : Disk) (hby : State.By (scheme g) id a a')
    (w' : World g a' σ'.images) (hsub : σ.images ⊆ σ'.images)
    (hup : ∀ v, v ≠ id → σ'.up v = σ.up v) (hdisk : ∀ v, v ≠ id → σ'.disk v = σ.disk v)
    (hcompacted : ∀ v, v ≠ id → σ'.compacted v = σ.compacted v)
    (hpublished : ∀ {s : SnapshotDescriptor} {l : List Entry}, (s, l) ∈ σ'.images →
      ∃ v retained, (v, .publishSnapshot none s retained) ∈ σ'.trace)
    (htrace : ∀ {v : NodeId} {e : Effect}, (v, e) ∈ σ'.trace → (v, e) ∈ σ.trace ∨
      v = id ∧ ∃ e', e = sealed g e' ∧ EffectOK g a' σ'.images id e')
    (hself : σ'.disk id = some d') (hd : DiskOK g a' σ'.images id (σ'.compacted id) d')
    (hn : ∀ {n' : RaftNode}, σ'.up id = some n' →
      NodeOK g a' σ'.images id (σ'.compacted id) n' ∧ Agrees n' d') : Related g a' σ' where
  world := w'
  published := hpublished
  absent {v} hv := by
    have hne : v ≠ id := by
      rintro rfl
      rw [hself] at hv
      cases hv
    rw [hdisk v hne] at hv
    rw [hup v hne, (hby.others v hne).term, (hby.others v hne).log, hcompacted v hne]
    exact h.absent hv
  disks {v dv} hv := by
    by_cases hne : v = id
    · subst hne
      rw [hself] at hv
      cases hv
      exact hd
    · rw [hdisk v hne] at hv
      rw [hcompacted v hne]
      have hun := hby.others v hne
      exact (h.disks hv).frame hun.term hun.log hun.vote (hby.knows h.world.inv) hsub
  nodes {v nv} hv := by
    by_cases hne : v = id
    · subst hne
      exact ⟨(hn hv).1, d', hself, (hn hv).2⟩
    · rw [hup v hne] at hv
      rw [hcompacted v hne, hdisk v hne]
      obtain ⟨hnode, dv, hdv, hagrees⟩ := h.nodes hv
      exact ⟨hnode.frame hby.le (hby.others v hne) (hby.knows h.world.inv) hsub, dv, hdv, hagrees⟩
  trace hv := by
    rcases htrace hv with hold | ⟨rfl, hnew⟩
    · obtain ⟨e', heq, hok⟩ := h.trace hold
      exact ⟨e', heq, hok.mono hby.le (hby.knows h.world.inv) hsub⟩
    · exact hnew

theorem Related.at (h : Related g a σ) (hup : σ.up id = some n) :
    ∃ d, σ.disk id = some d ∧ At g a σ.images id (σ.compacted id) n d := by
  obtain ⟨hnode, d, hd, hagrees⟩ := h.nodes hup
  exact ⟨d, hd, hnode, h.disks hd, hagrees⟩

/-- A node executes effects that publish nothing and goes on. -/
theorem Related.goes (h : Related g a σ) (hdisk : σ.disk id = some d)
    (hgoes : Goes g a σ.images id (σ.compacted id) d es n')
    (hes : ∀ e ∈ es, e.isPublish = false) :
    ∃ a', State.By (scheme g) id a a' ∧
      Related g a' ((σ.executeAll id (es.map (sealed g))).run id n') := by
  obtain ⟨a', hby, w', hat, hok⟩ := hgoes
  have hquiet : ∀ e ∈ es.map (sealed g), e.isPublish = false := by
    intro e he
    obtain ⟨e', he', rfl⟩ := List.mem_map.1 he
    have := hes e' he'
    cases e' <;> exact this
  have hfold : (es.map (sealed g)).foldl Disk.execute d = es.foldl Disk.execute d := by
    rw [List.foldl_map]
    simp only [execute_sealed]
  refine ⟨a', hby, ?_⟩
  rw [Cluster.executeAll_quiet hdisk hquiet, hfold]
  refine h.change (es.foldl Disk.execute d) hby w' (List.Subset.refl _)
    (fun v hv => update_of_ne hv _ _) (fun v hv => update_of_ne hv _ _) (fun _ _ => rfl) ?_ ?_
    (update_self _ _ _) hat.disk ?_
  · intro s l hs
    obtain ⟨v, retained, hv⟩ := h.published hs
    exact ⟨v, retained, List.mem_append_left _ hv⟩
  · intro v e hv
    rcases List.mem_append.1 hv with hv | hv
    · exact Or.inl hv
    · obtain ⟨e', he', heq⟩ := List.mem_map.1 hv
      cases heq
      obtain ⟨e'', he'', rfl⟩ := List.mem_map.1 he'
      exact Or.inr ⟨rfl, e'', rfl, hok e'' he''⟩
  · intro n'' hn''
    rw [Cluster.run_up] at hn''
    cases hn''
    exact ⟨hat.node, hat.agrees⟩

/-! ## One move -/

/-- Every move that publishes nothing. -/
theorem At.goes {images : List (SnapshotDescriptor × List Entry)} {k : List Entry}
    (w : World g a images) (h : At g a images id k n d) (hc : CauseOK a images id c)
    (hs : Step c n es n') (hes : ∀ e ∈ es, e.isPublish = false) :
    Goes g a images id k d es n' := by
  have hsound := hs.sound h.node.sound
  have hterm := h.term
  cases hs with
  | land hl =>
    cases hl with
    | compacted hp ht => exact h.landCompacted w hp ht hsound
    | installed hp ht hhard hnext => exact h.landInstalled w hp ht hhard hnext hsound
  | move hidle hm =>
    cases hm with
    | weaken hw => exact h.weaken w hw hsound
    | note he => exact h.note w he
    | send hsend => exact h.send w hidle hc hsend
    | progress hrole hnext hmatched => exact h.progress w hidle hrole hnext hmatched hsound
    | peerAck hrole hknown hack hle =>
      have hr := h.node.role
      rw [hrole] at hr
      refine h.setRole w (hr.peerAck w hknown ?_) (Or.inl (h.incoming_none (by simp [hrole])))
        hsound
      rw [← hterm]
      exact hack.ackedTo hc
    | adopt hlt => exact h.adopt w hlt hsound
    | campaign hnext hrole => exact h.campaign w hnext hrole hsound
    | grant hheard hdecide =>
      subst hheard
      exact h.grant w hidle hc hdecide hsound
    | countVote hrole hheard =>
      subst hheard
      have hr := h.node.role
      rw [hrole] at hr
      refine h.setRole w (hr.countVote ?_) (Or.inl (h.incoming_none (by simp [hrole]))) hsound
      rw [← hterm]
      exact hc rfl
    | win hrole hquorum hindex => exact h.win w hidle hrole hquorum hindex hsound
    | extend hlead hconf hlast => exact h.extend w hidle hlead hconf hlast hsound
    | extendConf hlead hclear hindex hnext =>
      exact h.extendConf w hidle hlead hclear hindex hnext hsound
    | merge hrole hanchor hcommitted hkept hlt hstop hmembership =>
      exact h.merge w hidle hc hrole hanchor hkept hlt hstop hmembership hsound
    | commit hgt hsafe hmembership =>
      rcases hsafe with hquorum | hsaid
      · exact h.commitQuorum w hidle hgt hquorum hmembership hsound
      · exact h.commitLeader w hidle hc hgt hsaid hmembership hsound
    | refresh hnext => exact h.refresh w hidle hnext hsound
    | apply hle hentry => exact h.apply w hidle hle hentry
    | rewriteHard => exact h.rewriteHard w
    | receive hrole hheard ht htransfer hdescriptor =>
      subst hheard htransfer hdescriptor
      exact h.receive w hrole ht hc.2 hsound
    | publish => exact absurd (hes _ (List.mem_cons_self ..)) (by simp [Effect.isPublish])
    | applySnapshot hsnapshot hcommit => exact h.applySnapshot w hidle hsnapshot
    | applied hge hle =>
      exact Goes.still w (h.memory { h.node with sound := hsound } rfl rfl rfl rfl rfl) (by simp)
    | syncApplied hcommit =>
      exact Goes.still w (h.memory { h.node with
        sound := hsound, incoming := fun hx => by cases hx } rfl rfl rfl rfl rfl) (by simp)
    | readStart hasked hfresh hready =>
      exact Goes.still w (h.memory { h.node with sound := hsound } rfl rfl rfl rfl rfl) (by simp)
    | readCount hlead hread hheard ht =>
      exact Goes.still w (h.memory { h.node with sound := hsound } rfl rfl rfl rfl rfl) (by simp)
    | readSelf hasked hready hquorum =>
      exact Goes.still w (h.memory { h.node with sound := hsound } rfl rfl rfl rfl rfl)
        (by simp [EffectOK])
    | readReady hlead hread hheard ht hquorum =>
      exact Goes.still w (h.memory { h.node with sound := hsound } rfl rfl rfl rfl rfl)
        (by simp [EffectOK])

theorem Related.imageOf (h : Related g a σ) {s : SnapshotDescriptor} {l : List Entry}
    (hmem : (s, l) ∈ σ.images) : σ.imageOf s = l := by
  unfold Cluster.imageOf
  cases hf : σ.images.find? fun x => x.1 = s with
  | none =>
    have := List.find?_eq_none.1 hf _ hmem
    simp at this
  | some x =>
    obtain ⟨s', l'⟩ := x
    obtain rfl : s' = s := by simpa using List.find?_some hf
    exact h.world.image_unique (List.mem_of_find?_eq_some hf) hmem

/-- A node publishes an image on its disk. -/
theorem Related.publishes {k' : List Entry} (images' : List (SnapshotDescriptor × List Entry))
    {transfer : Option SnapshotTransferId} {descriptor : SnapshotDescriptor}
    {retained : List Entry} (h : Related g a σ) (hdisk : σ.disk id = some d)
    (hby : State.By (scheme g) id a a') (w' : World g a' images')
    (hremember : σ.remember id (.publishSnapshot transfer descriptor retained) =
      { σ with compacted := update σ.compacted id k', images := images' })
    (himages : ∀ x ∈ images', x ∈ σ.images ∨ transfer = none ∧ x.1 = descriptor)
    (hsub : σ.images ⊆ images')
    (hat : At g a' images' id k' n'
      (d.execute (.publishSnapshot transfer descriptor retained))) :
    Related g a' ((σ.execute id (.publishSnapshot transfer descriptor retained)).run id n') := by
  have hexec : σ.execute id (.publishSnapshot transfer descriptor retained) =
      { σ with
        compacted := update σ.compacted id k', images := images'
        disk := update σ.disk id (some (d.execute (.publishSnapshot transfer descriptor retained)))
        trace := σ.trace ++ [(id, .publishSnapshot transfer descriptor retained)] } := by
    rw [Cluster.execute, hremember, hdisk]
    rfl
  rw [hexec]
  refine h.change (d.execute (.publishSnapshot transfer descriptor retained)) hby w' hsub
    (fun v hv => update_of_ne hv _ _) (fun v hv => update_of_ne hv _ _)
    (fun v hv => update_of_ne hv _ _) ?_ ?_ (update_self _ _ _) ?_ ?_
  · intro s l hs
    rcases himages _ hs with hold | ⟨rfl, rfl⟩
    · obtain ⟨v, r, hv⟩ := h.published hold
      exact ⟨v, r, List.mem_append_left _ hv⟩
    · exact ⟨id, retained, List.mem_append_right _ (List.mem_singleton_self _)⟩
  · intro v e hv
    rcases List.mem_append.1 hv with hv | hv
    · exact Or.inl hv
    · cases List.mem_singleton.1 hv
      exact Or.inr ⟨rfl, .publishSnapshot transfer descriptor retained, rfl, trivial⟩
  · show DiskOK g a' images' id (update σ.compacted id k' id) _
    rw [update_self]
    exact hat.disk
  · intro n'' hn''
    rw [Cluster.run_up] at hn''
    cases hn''
    show NodeOK g a' images' id (update σ.compacted id k' id) _ ∧ _
    rw [update_self]
    exact ⟨hat.node, hat.agrees⟩

theorem Related.publish {transfer : Option SnapshotTransferId} {descriptor : SnapshotDescriptor}
    {round : Nat} (h : Related g a σ) (hup : σ.up id = some n)
    (hidle : n.publishingSnapshot = none) (hpub : n.MayPublish transfer descriptor)
    (hsound : RaftNode.Sound { n with
      publishingSnapshot := some ⟨transfer, descriptor, n.retainedSuffix descriptor, round⟩ }) :
    ∃ a', State.By (scheme g) id a a' ∧ Related g a'
      ((σ.execute id (.publishSnapshot transfer descriptor (n.retainedSuffix descriptor))).run id
        { n with
          publishingSnapshot :=
            some ⟨transfer, descriptor, n.retainedSuffix descriptor, round⟩ }) := by
  obtain ⟨d, hd, hat⟩ := h.at hup
  cases transfer with
  | none =>
    have himage := hat.imageOK h.world hidle hpub
    have hnew : σ.compactedTo id descriptor.metadata.lastIncludedIndex =
        (a.log id).take descriptor.metadata.lastIncludedIndex := by
      rw [Cluster.compactedTo, hd]
      exact hat.compactedTo h.world hidle hpub.2.2.2.1.le
    have hmem : (descriptor, (a.log id).take descriptor.metadata.lastIncludedIndex) ∈
        σ.images ++ [(descriptor, (a.log id).take descriptor.metadata.lastIncludedIndex)] :=
      List.mem_append_right _ (List.mem_singleton_self _)
    refine ⟨a, State.By.refl id a, h.publishes
      (σ.images ++ [(descriptor, (a.log id).take descriptor.metadata.lastIncludedIndex)]) hd
      (State.By.refl id a)
      { h.world with images := fun {s l} hs => ?_ } ?_ ?_ (List.subset_append_left _ _)
      (hat.publishOwn h.world hidle hpub (List.subset_append_left _ _) hmem hsound)⟩
    · rcases List.mem_append.1 hs with hs | hs
      · exact h.world.images hs
      · cases List.mem_singleton.1 hs
        exact himage
    · rw [← hnew]
      rfl
    · intro x hx
      rcases List.mem_append.1 hx with hx | hx
      · exact Or.inl hx
      · exact Or.inr ⟨rfl, congrArg Prod.fst (List.mem_singleton.1 hx)⟩
  | some transfer =>
    obtain ⟨a', k', hby, w', hmem, hat'⟩ := hat.publishOffered h.world hidle hpub hsound
    refine ⟨a', hby, h.publishes _ hd hby w' ?_ (fun x hx => Or.inl hx) (List.Subset.refl _) hat'⟩
    rw [← h.imageOf hmem]
    rfl

theorem Effect.isPublish_of_isNote {e : Effect} (he : e.isNote = true) : e.isPublish = false := by
  cases e with
  | publishSnapshot => cases he
  | _ => rfl

/-- A move publishes nothing, or it is a publication. -/
theorem Step.publish_cases (hs : Step c n es n') :
    (∀ e ∈ es, e.isPublish = false) ∨ n.publishingSnapshot = none ∧
      ∃ transfer descriptor round, n.MayPublish transfer descriptor ∧
        es = [.publishSnapshot transfer descriptor (n.retainedSuffix descriptor)] ∧
        n' = { n with
          publishingSnapshot :=
            some ⟨transfer, descriptor, n.retainedSuffix descriptor, round⟩ } := by
  cases hs with
  | land hl =>
    refine Or.inl fun e he => ?_
    cases hl with
    | compacted => cases he
    | installed =>
      split at he
      · cases he
      · rw [List.mem_singleton.1 he]
        rfl
  | move hidle hm =>
    cases hm with
    | publish hpub => exact Or.inr ⟨hidle, _, _, _, hpub, rfl, rfl⟩
    | note he =>
      refine Or.inl fun e he' => ?_
      rw [List.mem_singleton.1 he']
      exact Effect.isPublish_of_isNote he
    | commit =>
      refine Or.inl fun e he => ?_
      split at he
      · cases he
      · rw [List.mem_singleton.1 he]
        rfl
    | _ => exact Or.inl (by simp [Effect.isPublish])

/-- **One move of a running node**, executed on the cluster. -/
theorem Related.step (h : Related g a σ) (hup : σ.up id = some n) (hc : CauseOK a σ.images id c)
    (hs : Step c n es n') :
    ∃ a', State.By (scheme g) id a a' ∧
      Related g a' ((σ.executeAll id (es.map (sealed g))).run id n') := by
  rcases hs.publish_cases with hes | ⟨hidle, transfer, descriptor, round, hpub, rfl, rfl⟩
  · obtain ⟨d, hd, hat⟩ := h.at hup
    exact h.goes hd (hat.goes h.world hc hs hes) hes
  · exact h.publish hup hidle hpub (hs.sound (h.nodes hup).1.sound)

end MicroRaft
