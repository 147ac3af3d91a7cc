import Hadris.Fat

namespace Hadris

namespace Fat

open Io (Reads)

variable (fat : Fat)

theorem isCluster_iff (cluster : Nat) : fat.isCluster cluster = true ↔
    firstDataCluster ≤ cluster ∧ cluster ≤ fat.geo.maxCluster := by
  simp [isCluster]

theorem reads_checkCluster (cluster : Nat) :
    Reads (fat.checkCluster cluster) fun c => c = cluster ∧ fat.isCluster cluster := by
  simp only [checkCluster]
  exact Reads.ite (fun h => Reads.pure ⟨rfl, h⟩) fun _ => Reads.fail _

theorem reads_get (cluster : Nat) : Reads (fat.get cluster) fun _ => fat.isCluster cluster :=
  Reads.bind (fat.reads_checkCluster cluster) fun _ hc =>
    Reads.bind (Reads.readBytes _ _) fun _ _ => Reads.pure hc.2

theorem next_isCluster {stored next : Nat}
    (h : fat.geo.kind.next stored fat.geo.maxCluster = .ok (some next)) : fat.isCluster next := by
  simp only [FatKind.next] at h
  split at h
  · cases h
  split at h
  · cases h
  split at h
  · cases h
  rename_i hrange
  cases h
  rw [isCluster_iff]
  omega

theorem reads_next (cluster : Nat) : Reads (fat.next cluster) fun next =>
    fat.isCluster cluster ∧ ∀ c, next = some c → fat.isCluster c := by
  refine Reads.bind (fat.reads_get cluster) fun stored hc => ?_
  split
  · rename_i next hnext
    refine Reads.pure ⟨hc, ?_⟩
    rintro c rfl
    exact fat.next_isCluster hnext
  · exact Reads.fail _
  · exact Reads.fail _

theorem reads_walkLoop (steps : Nat) (at_ : ChainPos) :
    Reads (fat.walkLoop steps at_) fun _ => True := by
  induction steps generalizing at_ with
  | zero => exact Reads.pure trivial
  | succ steps ih =>
    refine Reads.bind (fat.reads_next at_.cluster) fun next _ => ?_
    split
    · exact Reads.pure trivial
    · split
      · exact ih _
      · exact Reads.fail _

theorem reads_walk (first : Nat) (from_ : ChainPos) (want : Nat) :
    Reads (fat.walk first from_ want) fun _ => True :=
  Reads.ite (fun _ => fat.reads_walkLoop _ _) fun _ =>
    Reads.bind (fat.reads_checkCluster first) fun _ _ => fat.reads_walkLoop _ _

theorem reads_runLoop (max fuel n : Nat) (at_ : ChainPos) :
    Reads (fat.runLoop max fuel n at_) fun _ => True := by
  induction fuel generalizing n at_ with
  | zero => exact Reads.pure trivial
  | succ fuel ih =>
    refine Reads.ite (fun _ => ?_) fun _ => Reads.pure trivial
    refine Reads.bind (fat.reads_next at_.cluster) fun next _ => ?_
    split
    · refine Reads.ite (fun _ => ?_) fun _ => Reads.pure trivial
      split
      · exact Reads.fail _
      · exact ih _ _
    · exact Reads.pure trivial

theorem reads_run (at_ : ChainPos) (n max : Nat) : Reads (fat.run at_ n max) fun _ => True :=
  fat.reads_runLoop _ _ _ _

end Fat

namespace Vol

open Io (Reads)

variable (fat : Fat)

theorem reads_findFreeLoop (turns cluster : Nat) :
    Reads (findFreeLoop fat turns cluster) fun r => ∀ c, r = some c → fat.isCluster c := by
  induction turns generalizing cluster with
  | zero => exact Reads.pure (by simp)
  | succ turns ih =>
    refine Reads.bind (fat.reads_get cluster) fun _ hc =>
      Reads.ite (fun _ => Reads.pure ?_) fun _ => ih _
    rintro c ⟨⟩
    exact hc

theorem reads_scanFree (total from_ count turns step found : Nat) :
    Reads (scanFree fat total from_ count turns step found) fun r =>
      ∀ last, r.2 = some last → last < step + turns := by
  induction turns generalizing step found with
  | zero => exact Reads.pure (by simp)
  | succ turns ih =>
    refine Reads.bind (fat.reads_get _) fun _ _ =>
      Reads.ite (fun _ => Reads.ite (fun _ => ?_) ?_) ?_
    · refine Reads.pure ?_
      rintro last ⟨⟩
      omega
    · exact fun _ => (ih _ _).mono fun r h last hl => by have := h last hl; omega
    · exact fun _ => (ih _ _).mono fun r h last hl => by have := h last hl; omega

theorem mem_add {group : ClusterGroup} {cluster c : Nat} (h : c ∈ (group.add cluster).members) :
    c = cluster ∨ c ∈ group.members := by
  simp only [ClusterGroup.add] at h
  split at h
  · simp only [List.mem_append, List.mem_filter, List.mem_cons] at h
    rcases h with h | h | h
    · exact Or.inr h.1
    · exact Or.inl h
    · exact Or.inr h.1
  · exact Or.inr h

theorem cyclicAt_isCluster {from_ step total : Nat} (htotal : total = fat.geo.maxCluster - 1)
    (hfrom : from_ < total) (hstep : step < total) :
    fat.isCluster (cyclicAt total from_ step) := by
  simp only [Fat.isCluster_iff, cyclicAt, firstDataCluster]
  split <;> omega

theorem reads_gatherFree (size total from_ high top : Nat) (group : ClusterGroup)
    (htotal : total = fat.geo.maxCluster - 1) (hfrom : from_ < total) (htop : top ≤ total)
    (hgroup : ∀ c ∈ group.members, fat.isCluster c) :
    Reads (gatherFree fat size total from_ high top group) fun r =>
      r.1 ≤ top ∧ ∀ c ∈ r.2.members, fat.isCluster c := by
  induction top generalizing group with
  | zero => exact Reads.pure ⟨Nat.le_refl _, hgroup⟩
  | succ top ih =>
    refine Reads.ite (fun _ => Reads.pure ⟨Nat.le_refl _, hgroup⟩) fun _ => ?_
    refine Reads.bind (fat.reads_get _) fun stored _ => ?_
    refine (ih _ (by omega) fun c hc => ?_).mono fun r hr => ⟨by omega, hr.2⟩
    split at hc
    · rcases mem_add hc with rfl | hc
      · exact cyclicAt_isCluster fat htotal hfrom (by omega)
      · exact hgroup c hc
    · exact hgroup c hc

theorem reads_gatherChain (size base fuel cluster : Nat) (group : ClusterGroup)
    (hgroup : ∀ c ∈ group.members, fat.isCluster c) :
    Reads (gatherChain fat size base fuel cluster group) fun r =>
      (∀ c, r.1 = .ok (some c) → fat.isCluster c) ∧ ∀ c ∈ r.2.members, fat.isCluster c := by
  induction fuel generalizing cluster group with
  | zero => exact Reads.fail _
  | succ fuel ih =>
    refine Reads.ite (fun _ => Reads.pure ⟨by simp, hgroup⟩) fun _ => ?_
    refine Reads.bind (Reads.attempt (fat.reads_next cluster)) fun next hnext => ?_
    have hadd (hc : fat.isCluster cluster = true) :
        ∀ c ∈ (group.add cluster).members, fat.isCluster c := by
      intro c h
      rcases mem_add h with rfl | h
      · exact hc
      · exact hgroup c h
    split
    · obtain ⟨hc, hnext⟩ := hnext _ rfl
      refine Reads.ite (fun _ => ih _ _ (hadd hc)) fun _ => Reads.pure ⟨?_, hadd hc⟩
      rintro c ⟨⟩
      exact hnext _ rfl
    · exact Reads.pure ⟨by simp, hadd (hnext _ rfl).1⟩
    · exact Reads.pure ⟨by simp, hgroup⟩

theorem reads_countFreeLoop (clusters : List Nat) (free : Nat) :
    Reads (countFreeLoop fat clusters free) fun _ => True := by
  induction clusters generalizing free with
  | nil => exact Reads.pure trivial
  | cons cluster rest ih => exact Reads.bind (fat.reads_get cluster) fun _ _ => ih _

end Vol

namespace Fat

/-- The entries stored in a block change only bytes of entries of data
clusters, and so do not change bytes outside `lo..hi`. -/
theorem patchEntries_outside {kind : FatKind} {link : Bool} {start lo hi : Nat}
    {entryAt : Nat → Nat} {members : List Nat} {value : Nat} {data data' : List UInt8}
    {counts counts' : Nat × Nat}
    (hmembers : ∀ c ∈ members, lo ≤ entryAt c ∧ entryAt c + kind.entryLen ≤ hi)
    (h : patchEntries kind link start entryAt members value data counts = some (data', counts')) :
    data'.length = data.length ∧
      ∀ k, start + k < lo ∨ hi ≤ start + k → data'.getD k 0 = data.getD k 0 := by
  induction members generalizing value data counts with
  | nil =>
    simp only [patchEntries, Option.some.injEq, Prod.mk.injEq] at h
    obtain ⟨rfl, -⟩ := h
    exact ⟨rfl, fun _ _ => rfl⟩
  | cons cluster rest ih =>
    obtain ⟨taken, freed⟩ := counts
    simp only [patchEntries] at h
    split at h
    · cases h
    rename_i hin
    obtain ⟨hlen, hsame⟩ := ih (fun c hc => hmembers c (by simp [hc])) h
    have hentry := hmembers cluster (by simp)
    have hcode := kind.encode_length cluster value
      ((data.drop (entryAt cluster - start)).take kind.entryLen)
    have hfits : entryAt cluster - start + (kind.encode cluster value
        ((data.drop (entryAt cluster - start)).take kind.entryLen)).length ≤ data.length := by
      omega
    have hpatch := Io.length_patched hfits
    rw [hcode] at hpatch
    refine ⟨hlen.trans hpatch, fun k hk => (hsame k hk).trans ?_⟩
    have hget := Io.getD_patched hfits
      (show k < entryAt cluster - start ∨ entryAt cluster - start + _ ≤ k by rw [hcode]; omega)
    rw [hcode] at hget
    exact hget

theorem patchBlock_outside {kind : FatKind} {start lo hi : Nat} {entryAt : Nat → Nat}
    {group : ClusterGroup} {chain tail : Option Nat} {data data' : List UInt8}
    {counts : Nat × Nat}
    (hmembers : ∀ c ∈ group.members, lo ≤ entryAt c ∧ entryAt c + kind.entryLen ≤ hi)
    (htail : ∀ c, tail = some c → lo ≤ entryAt c ∧ entryAt c + kind.entryLen ≤ hi)
    (h : patchBlock kind start entryAt group chain tail data = some (data', counts)) :
    data'.length = data.length ∧
      ∀ k, start + k < lo ∨ hi ≤ start + k → data'.getD k 0 = data.getD k 0 := by
  simp only [patchBlock, Option.bind_eq_bind, Option.bind_eq_some_iff] at h
  obtain ⟨⟨block, taken⟩, hgroup, h⟩ := h
  obtain ⟨hlen, hsame⟩ := patchEntries_outside hmembers hgroup
  cases tail with
  | none =>
    simp only [Option.some.injEq, Prod.mk.injEq] at h
    obtain ⟨rfl, -⟩ := h
    exact ⟨hlen, hsame⟩
  | some tail =>
    simp only [Option.bind_eq_some_iff] at h
    obtain ⟨⟨block', taken'⟩, hlast, h⟩ := h
    simp only [Option.some.injEq, Prod.mk.injEq] at h
    obtain ⟨rfl, -⟩ := h
    have hone : ∀ c ∈ [tail], lo ≤ entryAt c ∧ entryAt c + kind.entryLen ≤ hi := by
      simpa using htail tail rfl
    obtain ⟨hlen', hsame'⟩ := patchEntries_outside hone hlast
    exact ⟨hlen'.trans hlen, fun k hk => (hsame' k hk).trans (hsame k hk)⟩

theorem keeps_storeGroup {I : Device Stop → Prop} {bs lo hi : Nat} (hI : Device.Frame I lo hi)
    (hsize : ∀ d, I d → d.blockSize = bs) (fat : Fat) {group : ClusterGroup}
    {chain tail : Option Nat} {step : Nat}
    (hmembers : ∀ c ∈ group.members, lo ≤ fat.geo.entryAt step c ∧
      fat.geo.entryAt step c + fat.geo.kind.entryLen ≤ hi)
    (htail : ∀ c, tail = some c → lo ≤ fat.geo.entryAt step c ∧
      fat.geo.entryAt step c + fat.geo.kind.entryLen ≤ hi) :
    Prog.Keeps (Io.Sound I) (fat.storeGroup group chain tail step) := by
  refine Prog.keeps_iff_triple.mpr (Prog.Triple.bind (Prog.Triple.gets (Q := fun size io =>
    size = bs ∧ Io.Sound I io) fun io h => ⟨hsize _ h.2, h⟩) fun size => Prog.Triple.assume ?_)
  rintro rfl
  refine Prog.keeps_iff_triple.mp (Io.keeps_update hI hsize fun _ _ _ hblock h => ?_)
  obtain ⟨hlen, hsame⟩ := patchBlock_outside hmembers htail h
  exact ⟨hlen.trans hblock, fun k _ => hsame k⟩

end Fat

end Hadris
