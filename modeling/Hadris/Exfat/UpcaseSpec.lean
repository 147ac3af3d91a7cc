import Hadris.Exfat.UpcaseIndex

namespace Hadris.Exfat

open List

open Prog (Triple)

def fatAt (geo : Geometry) (img : Nat → UInt8) (cluster : Nat) : Nat :=
  u32At (slice img (Geometry.entryAt geo.fatStart cluster) 4) 0

def chainAt (geo : Geometry) (img : Nat → UInt8) (extent : Extent) : Nat → Nat
  | 0 => extent.first
  | k + 1 =>
    if extent.contiguous then chainAt geo img extent k + 1
    else fatAt geo img (chainAt geo img extent k)

/-- The clusters of `extent` hold the bytes of `table`. -/
structure HoldsBytes (geo : Geometry) (img : Nat → UInt8) (extent : Extent) (table : List UInt8) :
    Prop where
  length : table.length = extent.len
  bytes : ∀ pos < extent.len, ∃ base,
    geo.clusterOffset (chainAt geo img extent (pos / geo.clusterSize)) = some base ∧
      img (base + pos % geo.clusterSize) = table.getD pos 0

/-- No cluster of `extent` comes twice. -/
def Distinct (geo : Geometry) (img : Nat → UInt8) (extent : Extent) : Prop :=
  ∀ i j, i < j → j * geo.clusterSize < extent.len →
    chainAt geo img extent i ≠ chainAt geo img extent j

/-- What the reads of a volume with the bytes `img` lead to. -/
structure Reader (geo : Geometry) (img : Nat → UInt8) (J : Device Stop → Prop)
    (E : Stop → Io → Prop) : Prop where
  fat : ∀ cluster, geo.isCluster cluster → Triple (Io.Sound J) (fatEntry geo cluster)
    (fun entry io => entry = fatAt geo img cluster ∧ Io.Sound J io) E
  data : ∀ cluster base, geo.clusterOffset cluster = some base →
    ∀ within n, within + n ≤ geo.clusterSize →
      Triple (Io.Sound J) (Io.readBytes (base + within) n)
      (fun data io => data = slice img (base + within) n ∧ Io.Sound J io) E

section

variable {geo : Geometry} {img : Nat → UInt8} {extent : Extent} {table : List UInt8}

theorem isCluster_of_clusterOffset {cluster base : Nat}
    (h : geo.clusterOffset cluster = some base) :
    geo.isCluster cluster = true := by
  rw [Geometry.clusterOffset] at h
  split at h
  · assumption
  · cases h

theorem chainAt_contiguous (h : extent.contiguous = true) (k : Nat) :
    chainAt geo img extent k = extent.first + k := by
  induction k with
  | zero => rfl
  | succ k ih => rw [chainAt, if_pos h, ih, Nat.add_assoc]

theorem clusterSize_pos (geo : Geometry) : 0 < geo.clusterSize := Nat.two_pow_pos _

theorem HoldsBytes.isCluster (h : HoldsBytes geo img extent table) {k : Nat}
    (hk : k * geo.clusterSize < extent.len) :
    geo.isCluster (chainAt geo img extent k) = true := by
  obtain ⟨base, hbase, -⟩ := h.bytes _ hk
  rw [Nat.mul_div_cancel _ (clusterSize_pos geo)] at hbase
  exact isCluster_of_clusterOffset hbase

theorem div_mul_lt {a b len : Nat} (h : a < len) : a / b * b < len :=
  (Nat.div_mul_le_self a b).trans_lt h

theorem HoldsBytes.slice_eq (h : HoldsBytes geo img extent table) {pos n : Nat}
    (hin : pos % geo.clusterSize + n ≤ geo.clusterSize) (hlen : pos + n ≤ extent.len) {base : Nat}
    (hbase : geo.clusterOffset (chainAt geo img extent (pos / geo.clusterSize)) = some base) :
    slice img (base + pos % geo.clusterSize) n = bytesAt table pos n := by
  apply map_congr_left
  intro i hi
  have hlt := mem_range.mp hi
  have hdiv : (pos + i) / geo.clusterSize = pos / geo.clusterSize := by
    rw [Nat.add_div (clusterSize_pos geo), Nat.div_eq_of_lt (show i < geo.clusterSize by omega),
      Nat.mod_eq_of_lt (show i < geo.clusterSize by omega), if_neg (by omega)]
    rfl
  have hmod : (pos + i) % geo.clusterSize = pos % geo.clusterSize + i := by
    have h₁ := Nat.div_add_mod (pos + i) geo.clusterSize
    have h₂ := Nat.div_add_mod pos geo.clusterSize
    rw [hdiv] at h₁
    omega
  obtain ⟨base', hbase', hbyte⟩ := h.bytes (pos + i) (by omega)
  rw [hdiv, hbase] at hbase'
  cases hbase'
  rw [hmod, ← Nat.add_assoc] at hbyte
  exact hbyte

/-- The position is one of the chain's, and the guard marks a cluster before
it. -/
def OnChain (geo : Geometry) (img : Nat → UInt8) (extent : Extent) (at_ : ChainPos) : Prop :=
  at_.cluster = chainAt geo img extent at_.index ∧
    ∃ j ≤ at_.index, at_.guard.mark = chainAt geo img extent j

theorem OnChain.advance {at_ at' : ChainPos} (h : OnChain geo img extent at_)
    (hnext : at_.advance (chainAt geo img extent (at_.index + 1)) = some at') :
    OnChain geo img extent at' ∧ at'.index = at_.index + 1 := by
  simp only [ChainPos.advance, Option.map_eq_some_iff] at hnext
  obtain ⟨guard, hguard, rfl⟩ := hnext
  refine ⟨⟨rfl, ?_⟩, rfl⟩
  simp only [ChainGuard.step] at hguard
  split at hguard
  · cases hguard
  split at hguard
  · cases hguard
    exact ⟨at_.index + 1, le_rfl, rfl⟩
  · cases hguard
    obtain ⟨j, hj, hmark⟩ := h.2
    exact ⟨j, hj.trans (Nat.le_succ _), hmark⟩

theorem OnChain.advance_ne_none {at_ : ChainPos} (h : OnChain geo img extent at_)
    (hdistinct : Distinct geo img extent)
    (hlen : (at_.index + 1) * geo.clusterSize < extent.len) :
    at_.advance (chainAt geo img extent (at_.index + 1)) ≠ none := by
  intro hnone
  simp only [ChainPos.advance, Option.map_eq_none_iff, ChainGuard.step] at hnone
  split at hnone
  · rename_i hmark
    obtain ⟨j, hj, heq⟩ := h.2
    exact hdistinct j (at_.index + 1) (by omega) hlen (heq.symm.trans hmark.symm)
  · split at hnone <;> cases hnone

variable {J : Device Stop → Prop} {E : Stop → Io → Prop}

theorem Reader.next (hr : Reader geo img J E) {cluster : Nat} (hgeo : geo.Valid)
    (hcluster : geo.isCluster cluster = true)
    (hnext : geo.isCluster (fatAt geo img cluster) = true) :
    Triple (Io.Sound J) (next geo cluster)
      (fun r io => r = some (fatAt geo img cluster) ∧ Io.Sound J io) E := by
  have hmax : ¬ geo.maxCluster < cluster := by
    simp only [Geometry.isCluster, Bool.and_eq_true, decide_eq_true_eq] at hcluster
    exact not_lt.mpr hcluster.2
  have hend : fatAt geo img cluster ≠ fatEnd := by
    have hcount := hgeo.clusterCount.2
    simp only [Geometry.isCluster, Bool.and_eq_true, decide_eq_true_eq] at hnext
    have hle : fatAt geo img cluster ≤ geo.clusterCount + 1 := hnext.2
    simp only [maxClusterCount] at hcount
    simp only [fatEnd]
    omega
  rw [Exfat.next, get, if_neg hmax]
  refine Triple.bind (hr.fat cluster hcluster) fun entry => Triple.assume ?_
  rintro rfl
  rw [if_neg hend, if_pos hnext]
  exact Triple.pure fun io h => ⟨rfl, h⟩

section

variable (hr : Reader geo img J E) (hgeo : geo.Valid) (hbytes : HoldsBytes geo img extent table)
  (hcyclic : (∀ e io, Io.Sound J io → E e io) ∨ Distinct geo img extent)
include hr hgeo hbytes hcyclic

theorem locateLoop_triple (hchain : extent.contiguous = false) (turns : Nat) (at_ : ChainPos)
    (hat : OnChain geo img extent at_)
    (hlen : (at_.index + turns) * geo.clusterSize < extent.len) :
    Triple (Io.Sound J) (locateLoop geo turns at_)
      (fun r io => (OnChain geo img extent r ∧ r.index = at_.index + turns) ∧
        Io.Sound J io) E := by
  induction turns generalizing at_ with
  | zero => exact Triple.pure fun io h => ⟨⟨hat, rfl⟩, h⟩
  | succ turns ih =>
    have hstep : (at_.index + 1) * geo.clusterSize < extent.len :=
      (Nat.mul_le_mul_right _ (by omega)).trans_lt hlen
    have hhere : at_.index * geo.clusterSize < extent.len :=
      (Nat.mul_le_mul_right _ (by omega)).trans_lt hlen
    have hnext : fatAt geo img at_.cluster = chainAt geo img extent (at_.index + 1) := by
      rw [hat.1, chainAt, hchain]
      rfl
    rw [locateLoop]
    refine Triple.bind (hr.next hgeo (hat.1 ▸ hbytes.isCluster hhere)
      (hnext ▸ hbytes.isCluster hstep)) fun r => Triple.assume ?_
    rintro rfl
    rw [hnext]
    simp only
    split
    · rename_i at' hadvance
      obtain ⟨hat', hindex⟩ := hat.advance hadvance
      have hloop := ih at' hat' (by rw [hindex]; convert hlen using 2; omega)
      rw [hindex, Nat.add_assoc, Nat.add_comm 1] at hloop
      exact hloop
    · rename_i hnone
      rcases hcyclic with hE | hdistinct
      · exact Triple.fail fun io h => hE _ _ h
      · exact absurd hnone (hat.advance_ne_none hdistinct hstep)

theorem locate_triple {hint : ChainPos} (hhint : hint.cluster = 0 ∨ OnChain geo img extent hint)
    {want : Nat} (hlen : want * geo.clusterSize < extent.len) :
    Triple (Io.Sound J) (locate geo extent hint want)
      (fun r io => (OnChain geo img extent r ∧ r.index = want) ∧ Io.Sound J io) E := by
  have hcluster := hbytes.isCluster hlen
  rw [locate]
  refine Triple.ite (fun hcontiguous => ?_) fun hchain => ?_
  · rw [chainAt_contiguous hcontiguous] at hcluster
    rw [checkCluster, if_pos hcluster, pure_bind]
    have hat := @chainAt_contiguous geo img _ hcontiguous want
    exact Triple.pure fun io h => ⟨⟨⟨hat.symm, want, le_rfl, hat.symm⟩, rfl⟩, h⟩
  have hchain' : extent.contiguous = false := by simpa using hchain
  refine Triple.ite (fun hfrom => ?_) fun _ => ?_
  · have hat := hhint.resolve_left hfrom.1
    have hsum : hint.index + (want - hint.index) = want := by omega
    have hloop := locateLoop_triple hr hgeo hbytes hcyclic hchain' (want - hint.index) hint hat
      (by rw [hsum]; exact hlen)
    rwa [hsum] at hloop
  · have hfirst := hbytes.isCluster (k := 0) (by omega)
    rw [chainAt] at hfirst
    rw [checkCluster, if_pos hfirst, pure_bind]
    have hloop := locateLoop_triple hr hgeo hbytes hcyclic hchain' want (.start extent.first)
      ⟨rfl, 0, le_rfl, rfl⟩ (by rw [ChainPos.start, Nat.zero_add]; exact hlen)
    simp only [ChainPos.start, Nat.zero_add] at hloop
    exact hloop

end

end

end Hadris.Exfat

namespace Hadris.Exfat.Upcase

open List

open Borrow (Sound getState onIo setState triple_getState_eq triple_setState)
open Prog (Triple)

/-- How a program on the table fails: as its reads do, with an index left behind
that is still right. -/
def Fails (E : Stop → Io → Prop) (U : Upcase → Prop) (e : Stop) (b : Borrow Upcase) : Prop :=
  E e b.io ∧ U b.state

theorem triple_onIo_reads {α : Type} {x : Prog Io Stop α} {Q : α → Prop} {J : Device Stop → Prop}
    {E : Stop → Io → Prop} {T U : Upcase → Prop}
    (h : Triple (Io.Sound J) x (fun a io => Q a ∧ Io.Sound J io) E) (hU : ∀ t, T t → U t) :
    Triple (Sound T fun _ => J) (onIo x) (fun a b => Q a ∧ Sound T (fun _ => J) b)
      (Fails E U) := by
  intro b hb
  have hio := h b.io hb.io
  rcases hrun : x.run b.io with ⟨e | a, io⟩ <;> rw [hrun] at hio <;>
    simp only [onIo, Prog.run_zoom, Borrow.ioLens, hrun]
  · exact ⟨hio, hU _ hb.state⟩
  · exact ⟨hio.1, hio.2, hb.state⟩

theorem clusterAt_eq {σ : Type} {geo : Geometry} {cluster base : Nat}
    (h : geo.clusterOffset cluster = some base) :
    (clusterAt geo cluster : Prog σ Stop Nat) = pure base := by
  rw [clusterAt, h]

theorem unitsOf_length (bytes : List UInt8) : (unitsOf bytes).length = bytes.length / 2 := by
  simp [unitsOf]

theorem unitsOf_getElem {bytes : List UInt8} {i : Nat} (h : i < (unitsOf bytes).length) :
    (unitsOf bytes)[i] = u16At bytes (2 * i) := by
  simp [unitsOf]

theorem u16At_bytesAt {bytes : List UInt8} {pos count i : Nat} (h : i + 1 < count) :
    u16At (bytesAt bytes pos count) i = u16At bytes (pos + i) := by
  have hget : ∀ j < count, byteAt (bytesAt bytes pos count) j = byteAt bytes (pos + j) := by
    intro j hj
    simp [byteAt, bytesAt, getD_eq_getElem?_getD, hj]
  rw [u16At, u16At, hget _ (by omega), hget _ h, Nat.add_assoc]

theorem unitsOf_bytesAt {table : List UInt8} {pos n : Nat} (hpos : pos % 2 = 0)
    (hlen : pos + n ≤ table.length) :
    (unitsOf table).take ((pos + n) / 2) =
      (unitsOf table).take (pos / 2) ++ unitsOf (bytesAt table pos n) := by
  have hcount : (bytesAt table pos n).length = n := by simp [bytesAt]
  apply ext_getElem
  · simp only [length_take, length_append, unitsOf_length, hcount]
    omega
  intro i hi hi'
  simp only [length_take, unitsOf_length] at hi
  rw [getElem_take, unitsOf_getElem, getElem_append]
  split
  · rw [getElem_take, unitsOf_getElem]
  · rename_i hge
    simp only [length_take, unitsOf_length] at hge ⊢
    rw [unitsOf_getElem, u16At_bytesAt (by omega)]
    congr 1
    omega

variable {geo : Geometry} {img : Nat → UInt8} {extent : Extent} {table : List UInt8}
  {J : Device Stop → Prop} {E : Stop → Io → Prop}

section Decode

variable (hr : Reader geo img J E) (hgeo : geo.Valid) (hbytes : HoldsBytes geo img extent table)
  (hcyclic : (∀ e io, Io.Sound J io → E e io) ∨ Distinct geo img extent)

/-- A slot that holds no page and the mappings `ms` of page `page`. -/
def Decoding (extent : Extent) (units : List Nat) (slot page : Nat) (ms : List Mapping)
    (t : Upcase) : Prop :=
  Valid extent units t ∧
    t.cache slot = ⟨0, ms.foldl (storeInPage page) fun i => page * 256 + i⟩

theorem Valid.setCached {units : List Nat} {t : Upcase} (h : Valid extent units t) (slot : Nat)
    {cached : CachedPage} (hcached : cached.page ≠ 0 → ∀ low < 256,
      cached.units low = decodeTable units (cached.page * 256 + low)) :
    Valid extent units (t.setCached slot cached) := by
  refine ⟨h.extent, h.page0, h.identity, h.starts, h.victim, fun other hother low hlow => ?_⟩
  simp only [Upcase.setCached] at hother ⊢
  by_cases hslot : other = slot
  · rw [hslot, Function.update_self] at hother ⊢
    exact hcached hother low hlow
  · rw [Function.update_of_ne hslot] at hother ⊢
    exact h.cache other hother low hlow

theorem Decoding.emit {units : List Nat} {slot page : Nat} {ms ms' : List Mapping} {t : Upcase}
    (h : Decoding extent units slot page ms t) :
    Decoding extent units slot page (ms ++ ms') (t.emit slot page ms') := by
  refine ⟨h.1.setCached slot fun hpage => ?_, ?_⟩
  · rw [h.2] at hpage
    exact absurd rfl hpage
  · simp only [Upcase.emit, Upcase.setCached, Function.update_self, h.2, foldl_append]

theorem unit_within (hgeo : geo.Valid) (n : Nat) :
    n * 2 % geo.clusterSize + 2 ≤ geo.clusterSize := by
  have hshift := hgeo.clusterShift
  have hsector := hgeo.sectorShift
  have hsize : geo.clusterSize = 2 * 2 ^ (geo.clusterShift - 1) := by
    rw [Geometry.clusterSize, ← Nat.pow_succ']
    congr 1
    omega
  have hlt := Nat.mod_lt n (Nat.two_pow_pos (geo.clusterShift - 1))
  rw [hsize, Nat.mul_comm n, Nat.mul_mod_mul_left]
  omega

include hr hgeo hbytes hcyclic

theorem decodeLoop_triple (slot page fuel : Nat) (d : UpcaseDecoder) (hint : ChainPos)
    (ms : List Mapping) (hfuel : extent.len ≤ 2 * d.next + 2 * fuel)
    (hcode : d.code = page * 256 + ms.length)
    (hrest : ms ++ (UpcaseDecoder.feedAll ((unitsOf table).drop d.next) d).1 =
      (mappings (unitsOf table)).drop (page * 256))
    (hhint : hint.cluster = 0 ∨ OnChain geo img extent hint) :
    Triple (Sound (Decoding extent (unitsOf table) slot page ms) fun _ => J)
      (decodeLoop geo slot page fuel d hint)
      (fun _ b => ∃ ms', (ms' <+: (mappings (unitsOf table)).drop (page * 256) ∧
        (256 ≤ ms'.length ∨ ms' = (mappings (unitsOf table)).drop (page * 256))) ∧
        Sound (Decoding extent (unitsOf table) slot page ms') (fun _ => J) b)
      (Fails E (Valid extent (unitsOf table))) := by
  have hlength := unitsOf_length table
  rw [hbytes.length] at hlength
  have hdone : extent.len ≤ d.next * 2 + 1 →
      ms = (mappings (unitsOf table)).drop (page * 256) := by
    intro hend
    rw [drop_eq_nil_of_le (by omega), UpcaseDecoder.feedAll, append_nil] at hrest
    exact hrest
  induction fuel generalizing d hint ms with
  | zero =>
    have hall := hdone (by omega)
    exact Triple.pure fun b hb => ⟨ms, ⟨hall ▸ prefix_refl _, .inr hall⟩, hb⟩
  | succ fuel ih =>
    rw [decodeLoop]
    refine triple_getState_eq fun t ht => ?_
    have hextent := ht.1.extent
    rw [hextent]
    refine Triple.pre (Triple.ite (fun hmore => ?_) fun hstop => ?_)
      (fun b hb => (⟨hb.io, hb.state ▸ ht⟩ :
        Sound (Decoding extent (unitsOf table) slot page ms) (fun _ => J) b))
    · have hpos : d.next * 2 / geo.clusterSize * geo.clusterSize < extent.len :=
        div_mul_lt (by omega)
      refine Triple.bind (triple_onIo_reads (locate_triple hr hgeo hbytes hcyclic hhint hpos)
        fun t ht => ht.1) fun at_ => Triple.assume ?_
      rintro ⟨hat, hindex⟩
      obtain ⟨base, hbase, -⟩ := hbytes.bytes (d.next * 2) (by omega)
      have hcluster : geo.clusterOffset at_.cluster = some base := by
        rw [hat.1, hindex]
        exact hbase
      rw [clusterAt_eq hcluster, pure_bind]
      have hwithin := unit_within hgeo d.next
      refine Triple.bind (triple_onIo_reads (hr.data _ _ hcluster _ 2 hwithin)
        fun t ht => ht.1) fun pair => Triple.assume ?_
      rintro rfl
      rw [hbytes.slice_eq hwithin (by omega) hbase, u16At_bytesAt (by omega), Nat.add_zero]
      have hunit : d.next < (unitsOf table).length := by omega
      have hget := unitsOf_getElem hunit
      rw [Nat.mul_comm] at hget
      rw [← hget]
      refine Triple.bind (triple_setState (J := fun _ => J) (fun t _ ht _ => ht.emit)
        fun _ _ _ hJ => hJ) fun _ => ?_
      obtain ⟨-, hcode'⟩ := d.feed_consecutive (unitsOf table)[d.next]
      rw [drop_eq_getElem_cons hunit, UpcaseDecoder.feedAll, ← append_assoc] at hrest
      have hnext := d.feed_next (unitsOf table)[d.next]
      refine ih _ _ _ (by omega) (by rw [hcode', hcode, length_append, Nat.add_assoc])
        (by rw [hnext]; exact hrest) (.inr hat) fun hend => ?_
      rw [hnext] at hend
      rw [drop_eq_nil_of_le (by omega), UpcaseDecoder.feedAll, append_nil] at hrest
      exact hrest
    · refine Triple.pure fun b hb => ⟨ms, ⟨⟨_, hrest⟩, ?_⟩, hb⟩
      by_cases hend : extent.len ≤ d.next * 2 + 1
      · exact .inr (hdone hend)
      · exact .inl (by omega)

theorem decodePage_triple {slot page : Nat} (hpage : 0 < page) :
    Triple (Sound (fun t => Valid extent (unitsOf table) t ∧ t.identity page = false) fun _ => J)
      (decodePage geo slot page)
      (fun _ => Sound (fun t => Valid extent (unitsOf table) t ∧ ∀ low < 256,
        (t.cache slot).units low = decodeTable (unitsOf table) (page * 256 + low)) fun _ => J)
      (Fails E (Valid extent (unitsOf table))) := by
  rw [decodePage]
  refine triple_getState_eq fun t ht => ?_
  have hstart := ht.1.starts page hpage ht.2
  have hextent := ht.1.extent
  rw [UpcaseDecoder.mappingsFrom] at hstart
  refine Triple.bind (triple_setState (U := Decoding extent (unitsOf table) slot page [])
    (J := fun _ => J) ?_ fun _ _ _ hJ => hJ) fun _ => ?_
  · rintro t' - rfl -
    refine ⟨ht.1.setCached slot fun hzero => absurd rfl hzero, ?_⟩
    simp [Upcase.setCached]
  refine Triple.bind (triple_setState (J := fun _ => J) (fun t _ ht _ => ht.emit)
    fun _ _ _ hJ => hJ) fun _ => ?_
  rw [nil_append, hextent]
  refine Triple.bind
    (decodeLoop_triple hr hgeo hbytes hcyclic slot page extent.len _ _ _ (by omega)
    (UpcaseDecoder.drain_code _) hstart (.inl rfl)) fun _ => ?_
  rintro b ⟨ms, ⟨hfill, hlen⟩, hb⟩
  have hunits : ∀ low < 256, (b.state.cache slot).units low =
      decodeTable (unitsOf table) (page * 256 + low) := by
    intro low hlow
    rw [hb.state.2]
    exact storeInPage_decodeTable (unitsOf table) hfill hlen hlow
  refine ⟨hb.io, hb.state.1.setCached slot fun _ => hunits, fun low hlow => ?_⟩
  simp only [Upcase.setCached, Function.update_self]
  exact hunits low hlow

/-- Whatever earlier queries left in the cache, a query yields what the whole
table says, or fails as its reads do. -/
theorem upcase_triple (unit : Nat) :
    Triple (Sound (Valid extent (unitsOf table)) fun _ => J) (upcase geo unit)
      (fun upper b => upper = decodeTable (unitsOf table) unit ∧
        Sound (Valid extent (unitsOf table)) (fun _ => J) b)
      (Fails E (Valid extent (unitsOf table))) := by
  have hsplit : unit / 256 * 256 + unit % 256 = unit := Nat.div_add_mod' unit 256
  have hlow : unit % 256 < 256 := Nat.mod_lt _ (by decide)
  rw [upcase]
  refine triple_getState_eq fun t ht => ?_
  have hsound : ∀ b : Borrow Upcase, Sound (fun t' => t' = t) (fun _ => J) b →
      Sound (Valid extent (unitsOf table)) (fun _ => J) b := fun b hb => ⟨hb.io, hb.state ▸ ht⟩
  refine Triple.ite (fun hzero => ?_) fun hpos => Triple.ite (fun hid => ?_) fun hid => ?_
  · refine Triple.pure fun b hb => ⟨?_, hsound b hb⟩
    rw [ht.page0 _ hlow]
    congr 1
    omega
  · refine Triple.pure fun b hb => ⟨?_, hsound b hb⟩
    have hmap := ht.identity _ (Nat.pos_of_ne_zero hpos) hid _ hlow
    rw [hsplit] at hmap
    exact hmap.symm
  split
  · rename_i slot hfound
    have hslot := find?_some hfound
    rw [beq_iff_eq] at hslot
    refine Triple.pure fun b hb => ⟨?_, hsound b hb⟩
    have hunits := ht.cache slot (hslot ▸ hpos) _ hlow
    rw [hunits, hslot, hsplit]
  · refine Triple.bind (triple_setState (U := fun t => Valid extent (unitsOf table) t ∧
      t.identity (unit / 256) = false) (J := fun _ => J) ?_ fun _ _ _ hJ => hJ) fun _ => ?_
    · rintro t' - rfl -
      exact ⟨⟨ht.extent, ht.page0, ht.identity, ht.starts, Nat.mod_lt _ (by decide), ht.cache⟩,
        Bool.not_eq_true _ ▸ hid⟩
    refine Triple.bind (decodePage_triple hr hgeo hbytes hcyclic (Nat.pos_of_ne_zero hpos))
      fun _ => ?_
    refine triple_getState_eq fun t' ht' => Triple.pure fun b hb => ⟨?_, hb.io, hb.state ▸ ht'.1⟩
    rw [ht'.2 _ hlow, hsplit]

end Decode

end Hadris.Exfat.Upcase
