import Hadris.Bytes
import Hadris.Exfat.UpcaseDecoder
import Hadris.Exfat.Volume

namespace Hadris.Exfat

/-- A decoded page; page 0 stands for none. -/
structure CachedPage where
  page : Nat
  units : Nat → Nat

def upcaseCache : Nat := 2

/-- The up-case table, indexed once and decoded lazily: where each page starts,
which pages map every unit to itself, page 0, and a few more decoded pages. -/
structure Upcase where
  extent : Extent
  checksum : Nat
  storedChecksum : Nat
  starts : Nat → PageStart
  identity : Nat → Bool
  page0 : Nat → Nat
  cache : Nat → CachedPage
  victim : Nat

def unitsOf (bytes : List UInt8) : List Nat :=
  (List.range (bytes.length / 2)).map fun i => u16At bytes (2 * i)

namespace Upcase

open Borrow (getState onIo setState)

def new : Upcase where
  extent := ⟨0, 0, true⟩
  checksum := 0
  storedChecksum := 0
  starts _ := ⟨0, 0⟩
  identity _ := true
  page0 _ := 0
  cache _ := ⟨0, fun _ => 0⟩
  victim := 0

def indexStart (starts : Nat → PageStart) (m : Mapping) : Nat → PageStart :=
  if m.code % 256 = 0 then Function.update starts (m.code / 256) m.start else starts

def indexIdentity (identity : Nat → Bool) (m : Mapping) : Nat → Bool :=
  if m.upper ≠ m.code then Function.update identity (m.code / 256) false else identity

def indexPage0 (page0 : Nat → Nat) (m : Mapping) : Nat → Nat :=
  if m.code / 256 = 0 then Function.update page0 m.code m.upper else page0

def indexMapping (t : Upcase) (m : Mapping) : Upcase :=
  { t with
    starts := indexStart t.starts m
    identity := indexIdentity t.identity m
    page0 := indexPage0 t.page0 m }

def setCached (t : Upcase) (slot : Nat) (cached : CachedPage) : Upcase :=
  { t with cache := Function.update t.cache slot cached }

variable (geo : Geometry)

/-- The cluster of byte `pos` of the table, given the cluster of the byte
before it. -/
def indexCluster (extent : Extent) (cluster pos : Nat) : Prog Io Stop Nat :=
  if 0 < pos ∧ pos % geo.clusterSize = 0 then
    if extent.contiguous then pure (cluster + 1) else fatEntry geo cluster
  else pure cluster

def indexLoop : Nat → UpcaseDecoder → Nat → Nat → Prog (Borrow Upcase) Stop Unit
  | 0, _, _, _ => pure ()
  | fuel + 1, decoder, cluster, pos => do
      let t ← getState
      let extent := t.extent
      if pos < extent.len then do
        let cluster ← onIo (indexCluster geo extent cluster pos)
        let base ← clusterAt geo cluster
        let within := pos % geo.clusterSize
        let n := min (min 64 (geo.clusterSize - within)) (extent.len - pos)
        let chunk ← onIo (Io.readBytes (base + within) n)
        let fed := UpcaseDecoder.feedAll (unitsOf chunk) decoder
        setState fun t =>
          fed.1.foldl indexMapping { t with checksum := chunk.foldl checksumStep t.checksum }
        indexLoop fuel fed.2 cluster (pos + n)
      else pure ()

/-- Reads the up-case table once: its checksum, where each page starts, which
pages map every code point to itself, and page 0. -/
def indexUpcase (extent : Extent) (storedChecksum : Nat) : Prog (Borrow Upcase) Stop Unit := do
  setState fun t => { t with extent := extent, storedChecksum := storedChecksum, page0 := id }
  indexLoop geo extent.len .new extent.first 0
  setState fun t => { t with identity := Function.update t.identity 0 false }
  setState fun t => t.setCached 0 { t.cache 0 with page := 0 }
  setState fun t => t.setCached 1 { t.cache 1 with page := 0 }

def emit (slot page : Nat) (ms : List Mapping) (t : Upcase) : Upcase :=
  t.setCached slot { t.cache slot with units := ms.foldl (storeInPage page) (t.cache slot).units }

def decodeLoop (slot page : Nat) : Nat → UpcaseDecoder → ChainPos → Prog (Borrow Upcase) Stop Unit
  | 0, _, _ => pure ()
  | fuel + 1, decoder, hint => do
      let t ← getState
      let extent := t.extent
      if decoder.code < page * 256 + 256 ∧ decoder.next * 2 + 1 < extent.len then do
        let pos := decoder.next * 2
        let hint ← onIo (locate geo extent hint (pos / geo.clusterSize))
        let base ← clusterAt geo hint.cluster
        let pair ← onIo (Io.readBytes (base + pos % geo.clusterSize) 2)
        let fed := decoder.feed (u16At pair 0)
        setState (emit slot page fed.1)
        decodeLoop slot page fuel fed.2 hint
      else pure ()

/-- Decodes page `page` into a slot of the cache. The slot holds no page until
the whole page is decoded. -/
def decodePage (slot page : Nat) : Prog (Borrow Upcase) Stop Unit := do
  let t ← getState
  setState fun t => t.setCached slot ⟨0, fun i => page * 256 + i⟩
  let drained := (UpcaseDecoder.resume (t.starts page) (page * 256)).drain
  setState (emit slot page drained.1)
  decodeLoop geo slot page t.extent.len drained.2 ChainPos.none
  setState fun t => t.setCached slot { t.cache slot with page := page }

def findCached (t : Upcase) (page : Nat) : Option Nat :=
  (List.range upcaseCache).find? fun slot => (t.cache slot).page == page

/-- Up-cases one code unit through the volume's table, decoding its page from the
device when it is not cached. -/
def upcase (unit : Nat) : Prog (Borrow Upcase) Stop Nat := do
  let page := unit / 256
  let low := unit % 256
  let t ← getState
  if page = 0 then pure (t.page0 low)
  else if t.identity page then pure unit
  else match t.findCached page with
    | some slot => pure ((t.cache slot).units low)
    | none => do
        let slot := t.victim
        setState fun t => { t with victim := (slot + 1) % upcaseCache }
        decodePage geo slot page
        let t ← getState
        pure ((t.cache slot).units low)

end Upcase

end Hadris.Exfat

namespace Hadris.Exfat.Upcase

/-- What an index of the table of `units` says. Nothing is said of the slots of
the cache that hold no page. -/
structure Valid (extent : Extent) (units : List Nat) (t : Upcase) : Prop where
  extent : t.extent = extent
  page0 : ∀ low < 256, t.page0 low = decodeTable units low
  identity : ∀ page, 0 < page → t.identity page = true → ∀ low < 256,
    decodeTable units (page * 256 + low) = page * 256 + low
  starts : ∀ page, 0 < page → t.identity page = false →
    UpcaseDecoder.mappingsFrom units (.resume (t.starts page) (page * 256)) =
      (mappings units).drop (page * 256)
  victim : t.victim < upcaseCache
  cache : ∀ slot, (t.cache slot).page ≠ 0 → ∀ low < 256,
    (t.cache slot).units low = decodeTable units ((t.cache slot).page * 256 + low)

/-- What `indexUpcase` has recorded once it took `units`. -/
structure Indexed (extent : Extent) (units : List Nat) (t : Upcase) : Prop where
  extent : t.extent = extent
  starts : t.starts = (mappings units).foldl indexStart new.starts
  identity : t.identity = (mappings units).foldl indexIdentity new.identity
  page0 : t.page0 = (mappings units).foldl indexPage0 id
  victim : t.victim < upcaseCache
  cache : ∀ slot, upcaseCache ≤ slot → (t.cache slot).page = 0

section

variable (ms : List Mapping) (t : Upcase)

@[simp] theorem foldl_indexMapping_extent : (ms.foldl indexMapping t).extent = t.extent := by
  induction ms generalizing t with
  | nil => rfl
  | cons m rest ih => exact ih _

@[simp] theorem foldl_indexMapping_starts :
    (ms.foldl indexMapping t).starts = ms.foldl indexStart t.starts := by
  induction ms generalizing t with
  | nil => rfl
  | cons m rest ih => exact ih _

@[simp] theorem foldl_indexMapping_identity :
    (ms.foldl indexMapping t).identity = ms.foldl indexIdentity t.identity := by
  induction ms generalizing t with
  | nil => rfl
  | cons m rest ih => exact ih _

@[simp] theorem foldl_indexMapping_page0 :
    (ms.foldl indexMapping t).page0 = ms.foldl indexPage0 t.page0 := by
  induction ms generalizing t with
  | nil => rfl
  | cons m rest ih => exact ih _

@[simp] theorem foldl_indexMapping_victim : (ms.foldl indexMapping t).victim = t.victim := by
  induction ms generalizing t with
  | nil => rfl
  | cons m rest ih => exact ih _

@[simp] theorem foldl_indexMapping_cache : (ms.foldl indexMapping t).cache = t.cache := by
  induction ms generalizing t with
  | nil => rfl
  | cons m rest ih => exact ih _

end

variable {extent : Extent} {units : List Nat} {t : Upcase} {ms : List Mapping}

theorem Indexed.feed {before after : List Nat} (h : Indexed extent before t) (checksum : Nat) :
    Indexed extent (before ++ after) ((UpcaseDecoder.feedAll after
      (UpcaseDecoder.feedAll before .new).2).1.foldl indexMapping { t with checksum :=
  checksum }) := by
  have hms : mappings (before ++ after) = mappings before ++
      (UpcaseDecoder.feedAll after (UpcaseDecoder.feedAll before .new).2).1 := by
    rw [mappings, UpcaseDecoder.feedAll_append]
    rfl
  exact {
    extent := by rw [foldl_indexMapping_extent, h.extent]
    starts := by rw [foldl_indexMapping_starts, h.starts, hms, List.foldl_append]
    identity := by rw [foldl_indexMapping_identity, h.identity, hms, List.foldl_append]
    page0 := by rw [foldl_indexMapping_page0, h.page0, hms, List.foldl_append]
    victim := by
      rw [foldl_indexMapping_victim]
      exact h.victim
    cache := fun slot hslot => by
      rw [foldl_indexMapping_cache]
      exact h.cache slot hslot }

theorem foldl_indexPage0 {f g : Nat → Nat} (h : ∀ low < 256, f low = g low) {low : Nat}
    (hlow : low < 256) : ms.foldl indexPage0 f low = ms.foldl storeMapping g low := by
  induction ms generalizing f g with
  | nil => exact h low hlow
  | cons m rest ih =>
    refine ih fun i hi => ?_
    rw [indexPage0, storeMapping]
    by_cases him : i = m.code
    · rw [if_pos (by omega), him, Function.update_self, Function.update_self]
    · rw [Function.update_of_ne him]
      split
      · rw [Function.update_of_ne him, h i hi]
      · exact h i hi

theorem foldl_indexIdentity {identity : Nat → Bool} {page : Nat} :
    ms.foldl indexIdentity identity page = true ↔
      identity page = true ∧ ∀ m ∈ ms, m.code / 256 = page → m.upper = m.code := by
  induction ms generalizing identity with
  | nil => simp
  | cons m rest ih =>
    rw [List.foldl_cons, ih, indexIdentity]
    by_cases hupper : m.upper = m.code
    · simp [hupper]
    · by_cases hpage : page = m.code / 256
      · simp [hupper, hpage]
      · have hne : m.code / 256 ≠ page := fun h => hpage h.symm
        simp [hupper, Function.update_of_ne hpage, hne]

theorem foldl_indexStart {starts : Nat → PageStart} (h : Consecutive 0 ms) {page : Nat}
    (hpage : page * 256 < ms.length) :
    ms.foldl indexStart starts page = ms[page * 256].start := by
  induction ms using List.reverseRecOn with
  | nil => simp at hpage
  | append_singleton rest m ih =>
    have hm : m.code = rest.length := by
      have hcode := h.right.cons.1
      rwa [Nat.zero_add] at hcode
    rw [List.foldl_append, List.foldl_cons, List.foldl_nil, indexStart, hm]
    rw [List.length_append, List.length_singleton] at hpage
    by_cases hlast : page * 256 = rest.length
    · simp only [← hlast, Nat.mul_mod_left, if_true,
        Nat.mul_div_cancel _ (show 0 < 256 by decide), Function.update_self]
      rw [List.getElem_append_right (by omega)]
      simp [hlast]
    · have hlt : page * 256 < rest.length := by omega
      rw [List.getElem_append_left hlt, ← ih h.left hlt]
      split
      · exact Function.update_of_ne (by omega) _ _
      · rfl

theorem Indexed.valid (h : Indexed extent units t) {t' : Upcase} (hextent : t'.extent = t.extent)
    (hstarts : t'.starts = t.starts)
    (hidentity : ∀ page, 0 < page → t'.identity page = t.identity page)
    (hpage0 : t'.page0 = t.page0) (hvictim : t'.victim = t.victim)
    (hcache : ∀ slot, (t'.cache slot).page = 0) : Valid extent units t' where
  extent := hextent.trans h.extent
  page0 := fun low hlow => by
    rw [hpage0, h.page0, decodeTable]
    exact foldl_indexPage0 (fun _ _ => rfl) hlow
  identity := fun page hpage hid low hlow => by
    rw [hidentity page hpage, h.identity, foldl_indexIdentity] at hid
    rw [decodeTable_apply]
    split
    · rename_i hin
      have hcode := (mappings_consecutive units).code_getElem hin
      rw [Nat.zero_add] at hcode
      rw [hid.2 _ (List.getElem_mem hin) (by omega), hcode]
    · rfl
  starts := fun page hpage hid => by
    rw [hidentity page hpage, h.identity, ← Bool.not_eq_true, foldl_indexIdentity] at hid
    have hin : page * 256 < (mappings units).length := by
      by_contra hout
      refine hid ⟨rfl, fun m hm hcode => ?_⟩
      obtain ⟨i, hi, rfl⟩ := List.mem_iff_getElem.mp hm
      have hi' := (mappings_consecutive units).code_getElem hi
      omega
    rw [hstarts, h.starts, foldl_indexStart (mappings_consecutive units) hin]
    exact mappingsFrom_resume units hin
  victim := hvictim ▸ h.victim
  cache := fun slot hslot => absurd (hcache slot) hslot

end Hadris.Exfat.Upcase
