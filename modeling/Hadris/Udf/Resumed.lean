import Hadris.Udf.Walk

namespace Hadris.Udf

section

variable (info : Info) (dev : Device) (icb : Icb)

/-- The walks over an entry from its first descriptor on, each with the byte of the data that
its next piece starts at. -/
inductive Reached : Walk → Nat → Prop
  | start : Reached (.new icb) 0
  | step {walk walk' : Walk} {pos : Nat} {piece : Piece} (h : Reached walk pos)
      (hnext : walk.next info dev icb = .ok (some (piece, walk'))) :
      Reached walk' (pos + piece.len)

/-- The walks over an entry after `n` turns. -/
inductive Turns : Nat → Walk → Prop
  | start : Turns 0 (.new icb)
  | turn {n : Nat} {walk walk' : Walk} {turn : Turn} (h : Turns n walk)
      (hturn : walk.turn info dev icb = .ok turn) (hwalk : turn.walk? = some walk') :
      Turns (n + 1) walk'

/-- A walk holds the allocation extent descriptor that it follows, as a new walk loads it. -/
def Walk.Loaded (walk : Walk) : Prop :=
  match walk.aedAt with
  | none => walk.aed = (Walk.new icb).aed
  | some at_ => ∃ stop, (Walk.new icb).load info dev at_ =
      .ok ({ Walk.new icb with aed := walk.aed, aedAt := some at_ }, stop)

/-- What is recorded is where a walk over the entry stood. -/
def Recorded (resume : Resume) : Prop :=
  ∀ icb, icbAt info dev icb.at_ = .ok icb → resume.icb = some icb.at_ →
    ∃ walk, Reached info dev icb walk resume.offset ∧ walk.done = false ∧
      resume = { walk.mark icb resume.offset with location := resume.location }

end

variable {info : Info} {dev : Device} {icb : Icb} {walk walk' other : Walk}

theorem turns_le {n : Nat} (h : Turns info dev icb n walk) :
    n + walk.budget ≤ 2 * maxDescriptors + 1 := by
  induction h with
  | start =>
    change 0 + (maxDescriptors + 1 + (maxDescriptors - 0)) ≤ 2 * maxDescriptors + 1
    omega
  | turn h hturn hwalk ih =>
    have hlt := (Walk.turn_decreases hturn hwalk).2
    omega

namespace Walk

theorem load_other {at_ : Location} {stop : Nat}
    (h : walk.load info dev at_ = .ok (walk', stop)) :
    other.load info dev at_ = .ok ({ other with aed := walk'.aed, aedAt := some at_ }, stop) := by
  rw [load] at h ⊢
  obtain ⟨offset, hoffset, h⟩ := except_bind_ok.mp h
  obtain ⟨aed, haed, h⟩ := except_bind_ok.mp h
  obtain ⟨_, htag, h⟩ := except_bind_ok.mp h
  obtain ⟨_, hstop, h⟩ := except_bind_ok.mp h
  cases h
  refine except_bind_ok.mpr ⟨offset, hoffset, except_bind_ok.mpr ⟨aed, haed, ?_⟩⟩
  exact except_bind_ok.mpr ⟨_, htag, except_bind_ok.mpr ⟨_, hstop, rfl⟩⟩

theorem Loaded.new : (Walk.new icb).Loaded info dev icb := rfl

theorem Loaded.moved (h : walk.Loaded info dev icb) (haed : walk'.aed = walk.aed)
    (hat : walk'.aedAt = walk.aedAt) : walk'.Loaded info dev icb := by
  rw [Loaded, hat, haed]
  exact h

theorem Loaded.load {at_ : Location} {stop : Nat}
    (h : walk.load info dev at_ = .ok (walk', stop)) :
    walk'.Loaded info dev icb := by
  have hload := @load_other info dev walk walk' (Walk.new icb) at_ stop h
  rw [load_ok h]
  exact ⟨stop, hload⟩

theorem Loaded.follow {ad : AllocationDescriptor} {turn : Turn}
    (hloaded : walk.Loaded info dev icb)
    (h : walk.follow info dev ad = .ok turn) (hwalk : turn.walk? = some walk') :
    walk'.Loaded info dev icb := by
  rw [Walk.follow] at h
  split at h
  · split at h
    · cases h
    · obtain ⟨⟨loaded, stop⟩, hload, h⟩ := except_bind_ok.mp h
      obtain ⟨_, -, h⟩ := except_bind_ok.mp h
      cases h
      cases hwalk
      exact (Loaded.load hload).moved rfl rfl
  · split at h
    · obtain ⟨offset, -, h⟩ := except_bind_ok.mp h
      cases h
      split at hwalk <;> cases hwalk <;> exact hloaded
    · cases h
      split at hwalk <;> cases hwalk <;> exact hloaded

theorem Loaded.turn {turn : Turn} (hloaded : walk.Loaded info dev icb)
    (h : walk.turn info dev icb = .ok turn) (hwalk : turn.walk? = some walk') :
    walk'.Loaded info dev icb := by
  rw [Walk.turn] at h
  split at h
  · cases h
    cases hwalk
  · split at h
    · cases h
      cases hwalk
      exact hloaded.moved rfl rfl
    · rcases hsize : AllocationDescriptor.size icb.allocation with _ | size
      · rw [hsize] at h
        cases h
      · rw [hsize] at h
        change walk.turnOf info dev icb size = .ok turn at h
        rw [turnOf] at h
        split at h
        · cases h
          cases hwalk
        · split at h
          · cases h
          · obtain ⟨ad, -, h⟩ := except_bind_ok.mp h
            split at h
            · obtain ⟨_, -, h⟩ := except_bind_ok.mp h
              cases h
              cases hwalk
            · have hmoved : { walk with steps := walk.steps + 1, pos := walk.pos + size }.Loaded
                info dev icb :=
                hloaded.moved rfl rfl
              exact hmoved.follow h hwalk

theorem Loaded.next {piece : Piece} (hloaded : walk.Loaded info dev icb)
    (h : walk.next info dev icb = .ok (some (piece, walk'))) :
    walk.done = false ∧ walk'.Loaded info dev icb := by
  fun_induction Walk.next info dev icb walk with
  | case1 => cases h
  | case2 => cases h
  | case3 => cases h
  | case4 walk _ piece after hturn =>
    cases h
    exact ⟨(turn_decreases hturn rfl).1, hloaded.turn hturn rfl⟩
  | case5 walk _ after hturn ih =>
    exact ⟨(turn_decreases hturn rfl).1, (ih (hloaded.turn hturn rfl) h).2⟩

end Walk

theorem Reached.loaded {pos : Nat} (h : Reached info dev icb walk pos) :
    walk.Loaded info dev icb := by
  induction h with
  | start => exact .new
  | step h hnext ih => exact (ih.next hnext).2

theorem Recorded.resume {resume : Resume} (h : Recorded info dev resume)
    (hicb : icbAt info dev icb.at_ = .ok icb) (offset : Nat) :
    ∃ walk pos, (Walk.new icb).resume info dev icb resume offset = .ok (walk, pos) ∧
      Reached info dev icb walk pos ∧ pos ≤ offset := by
  by_cases hother : resume.icb ≠ some icb.at_ ∨ offset < resume.offset
  · exact ⟨.new icb, 0, by rw [Walk.resume, if_pos hother], .start, Nat.zero_le _⟩
  · rw [not_or, not_not, Nat.not_lt] at hother
    obtain ⟨walk, hreached, hdone, hmark⟩ := h icb hicb hother.1
    refine ⟨walk, resume.offset, ?_, hreached, hother.2⟩
    rw [Walk.resume, if_neg (by rw [not_or, not_not, Nat.not_lt]; exact hother), hmark]
    have hloaded := hreached.loaded
    obtain ⟨aed, aedAt, pos, stop, steps, hops, done⟩ := walk
    change done = false at hdone
    subst hdone
    rcases aedAt with _ | at_
    · change aed = _ at hloaded
      subst hloaded
      rfl
    · obtain ⟨end_, hload⟩ := hloaded
      refine except_bind_ok.mpr ⟨{ Walk.new icb with aed := aed, aedAt := some at_ }, ?_, rfl⟩
      change ((Walk.new icb).load info dev at_).map Prod.fst = _
      rw [hload]
      rfl

namespace DirectoryWindow

/-- A window holds the sector of the device that it names. -/
def Held (info : Info) (dev : Device) (window : DirectoryWindow) : Prop :=
  ∀ base, window.offset = some base →
    readBytes dev info.len base (min (info.len - base) (size info dev)) = .ok window.bytes

theorem Held.new : Held info dev .new := fun _ h => by cases h

variable {window window' : DirectoryWindow}

theorem Held.hold_ok {base len : Nat} {bytes : List UInt8} (h : window.Held info dev)
    (hlen : len = min (info.len - base) (size info dev))
    (hread : readBytes dev info.len base len = .ok bytes) :
    window.hold info dev base len = (.ok (), ⟨bytes, some base⟩) := by
  rw [hold]
  split
  · rename_i hat
    have hsame := h base hat
    rw [← hlen, hread] at hsame
    cases hsame
    rw [← hat]
  · rw [hread]

theorem Held.hold_error {base len : Nat} {error : Error} (h : window.Held info dev)
    (hlen : len = min (info.len - base) (size info dev))
    (hread : readBytes dev info.len base len = .error error) :
    window.hold info dev base len = (.error error, { window with offset := none }) := by
  rw [hold]
  split
  · rename_i hat
    have hsame := h base hat
    rw [← hlen, hread] at hsame
    cases hsame
  · rw [hread]

theorem Held.read_same {offset left : Nat} (h : window.Held info dev)
    (h' : window'.Held info dev) :
    (window.read info dev offset left).1 = (window'.read info dev offset left).1 := by
  rw [read, read]
  split
  · rfl
  · split
    · rfl
    · have hlen : held info dev offset = min (info.len - base info dev offset)
        (size info dev) := rfl
      rcases hread : readBytes dev info.len (base info dev offset)
        (held info dev offset) with error | bytes
      · rw [h.hold_error hlen hread, h'.hold_error hlen hread]
      · rw [h.hold_ok hlen hread, h'.hold_ok hlen hread]

theorem Held.hold {base len : Nat} (h : window.Held info dev)
    (hlen : len = min (info.len - base) (size info dev)) :
    (window.hold info dev base len).2.Held info dev := by
  rcases hread : readBytes dev info.len base len with error | bytes
  · rw [h.hold_error hlen hread]
    intro _ h
    cases h
  · rw [h.hold_ok hlen hread]
    intro _ h
    cases h
    rw [← hlen]
    exact hread

theorem Held.read {offset left : Nat} (h : window.Held info dev) :
    (window.read info dev offset left).2.Held info dev := by
  fun_induction DirectoryWindow.read info dev window offset left with
  | case1 => exact h
  | case2 => exact h
  | case3 window offset left _ _ error window1 hhold =>
    have hheld : (window.hold info dev (base info dev offset) (held info dev offset)).2.Held
      info dev :=
      h.hold rfl
    rw [hhold] at hheld
    exact hheld
  | case4 window offset left _ _ u window1 hhold take error window2 hread ih =>
    have hheld : (window.hold info dev (base info dev offset) (held info dev offset)).2.Held
      info dev :=
      h.hold rfl
    rw [hhold] at hheld
    have hrest := ih hheld
    rw [hread] at hrest
    exact hrest
  | case5 window offset left _ _ u window1 hhold take rest window2 hread ih =>
    have hheld : (window.hold info dev (base info dev offset) (held info dev offset)).2.Held
      info dev :=
      h.hold rfl
    rw [hhold] at hheld
    have hrest := ih hheld
    rw [hread] at hrest
    exact hrest

end DirectoryWindow

/-- Two windows that no read can tell from each other. -/
structure Alike (info : Info) (dev : Device) (window window' : Option DirectoryWindow) :
    Prop where
  same : window.isSome = window'.isSome
  left : ∀ held ∈ window, held.Held info dev
  right : ∀ held ∈ window', held.Held info dev

theorem Alike.readData {offset count : Nat} {window window' : Option DirectoryWindow}
    (h : Alike info dev window window') :
    (readData info dev offset count window).1 = (readData info dev offset count window').1 ∧
      Alike info dev (readData info dev offset count window).2
        (readData info dev offset count window').2 := by
  obtain ⟨hsame, hleft, hright⟩ := h
  rcases window with _ | window <;> rcases window' with _ | window'
  · exact ⟨rfl, rfl, fun _ h => (by cases h), fun _ h => (by cases h)⟩
  · cases hsame
  · cases hsame
  · have hheld := hleft window rfl
    have hheld' := hright window' rfl
    refine ⟨hheld.read_same hheld', rfl, fun held hmem => ?_, fun held hmem => ?_⟩
    · cases hmem
      exact hheld.read
    · cases hmem
      exact hheld'.read

theorem Alike.read {within count : Nat} {window window' : Option DirectoryWindow}
    (h : Alike info dev window window') (piece : Piece) :
    (piece.read info dev icb window within count).1 =
      (piece.read info dev icb window' within count).1 ∧
      Alike info dev (piece.read info dev icb window within count).2
        (piece.read info dev icb window' within count).2 := by
  rcases piece with ⟨offset, location, len⟩ | ⟨len, offset⟩ | ⟨start, len⟩
  · exact h.readData
  · exact ⟨rfl, h⟩
  · exact ⟨rfl, h⟩

section

variable {offset want pos done : Nat} {out : List UInt8} {resume : Resume}
  {window : Option DirectoryWindow}
  {piece : Piece}

theorem readPieces_done (h : want ≤ done) :
    readPieces info dev icb offset want walk pos out done resume window =
      ⟨.ok out, resume, window⟩ := by
  rw [readPieces, if_neg (Nat.not_lt.mpr h)]

theorem readPieces_error {error : Error} (h : done < want)
    (hnext : walk.next info dev icb = .error error) :
    readPieces info dev icb offset want walk pos out done resume window =
      ⟨.error error, resume, window⟩ := by
  rw [readPieces, if_pos h]
  split <;> rename_i hnext' <;> rw [hnext] at hnext' <;> cases hnext'
  rfl

theorem readPieces_ends (h : done < want) (hnext : walk.next info dev icb = .ok none) :
    readPieces info dev icb offset want walk pos out done resume window =
      ⟨.error badAd, resume, window⟩ := by
  rw [readPieces, if_pos h]
  split <;> rename_i hnext' <;> rw [hnext] at hnext' <;> cases hnext'

theorem readPieces_before (h : done < want)
    (hnext : walk.next info dev icb = .ok (some (piece, walk')))
    (hbefore : pos + piece.len ≤ offset + done) :
    readPieces info dev icb offset want walk pos out done resume window =
      readPieces info dev icb offset want walk' (pos + piece.len) out done resume window := by
  rw [readPieces, if_pos h]
  split <;> rename_i hnext' <;> rw [hnext] at hnext' <;> cases hnext'
  exact if_neg (Nat.not_lt.mpr hbefore)

theorem readPieces_piece (h : done < want)
    (hnext : walk.next info dev icb = .ok (some (piece, walk')))
    (hinside : offset + done < pos + piece.len) :
    readPieces info dev icb offset want walk pos out done resume window =
      let within := offset + done - pos
      let resume := resume.record info icb walk pos piece within done
      let take := min (piece.len - within) (want - done)
      match piece.read info dev icb window within take with
      | (.error error, window) => ⟨.error error, resume, window⟩
      | (.ok data, window) =>
        readPieces info dev icb offset want walk' (pos + piece.len) (out ++ data)
          (done + take) resume window := by
  rw [readPieces, if_pos h]
  split <;> rename_i hnext' <;> rw [hnext] at hnext' <;> cases hnext'
  exact if_pos hinside

end

theorem readPieces_skip {offset want pos : Nat} {resume : Resume}
    {window : Option DirectoryWindow} (h : Reached info dev icb walk pos) (hpos : pos ≤ offset) :
    readPieces info dev icb offset want (.new icb) 0 [] 0 resume window =
      readPieces info dev icb offset want walk pos [] 0 resume window := by
  induction h with
  | start => rfl
  | step h hnext ih =>
    rw [ih (Nat.le_of_add_right_le hpos)]
    rcases Nat.eq_zero_or_pos want with rfl | hwant
    · rw [readPieces_done (Nat.le_refl 0), readPieces_done (Nat.le_refl 0)]
    · exact readPieces_before hwant hnext hpos

theorem Recorded.record {resume : Resume} {pos within done : Nat} {piece : Piece}
    (hresume : Recorded info dev resume) (hicb : icbAt info dev icb.at_ = .ok icb)
    (h : Reached info dev icb walk pos)
    (hnext : walk.next info dev icb = .ok (some (piece, walk'))) :
    Recorded info dev (resume.record info icb walk pos piece within done) := by
  rw [Resume.record]
  split
  · intro icb' hicb' hat
    change some icb.at_ = some icb'.at_ at hat
    rw [← Option.some.inj hat, hicb] at hicb'
    cases hicb'
    exact ⟨walk, h, (h.loaded.next hnext).1, rfl⟩
  · exact hresume

theorem readPieces_same {offset want pos done : Nat} {out : List UInt8} {resume : Resume}
    {window window' : Option DirectoryWindow} (resume' : Resume)
    (h : Alike info dev window window') :
    (readPieces info dev icb offset want walk pos out done resume window).result =
        (readPieces info dev icb offset want walk pos out done resume' window').result ∧
      Alike info dev (readPieces info dev icb offset want walk pos out done resume window).window
        (readPieces info dev icb offset want walk pos out done resume' window').window := by
  fun_induction readPieces info dev icb offset want walk pos out done resume window
    generalizing resume' window' with
  | case1 walk pos out done resume window hlt error hnext =>
    rw [readPieces_error hlt hnext]
    exact ⟨rfl, h⟩
  | case2 walk pos out done resume window hlt hnext =>
    rw [readPieces_ends hlt hnext]
    exact ⟨rfl, h⟩
  | case3 =>
    rename_i walk pos out done resume window hlt piece walk' hnext hinside within resume1
      take error window1 hread
    obtain ⟨hresult, hwindow⟩ := @Alike.read info dev icb within take window window' h piece
    rcases hread' : piece.read info dev icb window' within take with ⟨result, window1'⟩
    rw [hread, hread'] at hresult hwindow
    cases hresult
    rw [readPieces_piece hlt hnext hinside]
    dsimp only
    rw [hread']
    exact ⟨rfl, hwindow⟩
  | case4 =>
    rename_i walk pos out done resume window hlt piece walk' hnext hinside within resume1 take
      data window1 hread ih
    obtain ⟨hresult, hwindow⟩ := @Alike.read info dev icb within take window window' h piece
    rcases hread' : piece.read info dev icb window' within take with ⟨result, window1'⟩
    rw [hread, hread'] at hresult hwindow
    cases hresult
    rw [readPieces_piece hlt hnext hinside]
    dsimp only
    rw [hread']
    exact ih _ hwindow
  | case5 walk pos out done resume window hlt piece walk' hnext hinside ih =>
    rw [readPieces_before hlt hnext (Nat.not_lt.mp hinside)]
    exact ih _ h
  | case6 walk pos out done resume window hlt =>
    rw [readPieces_done (Nat.not_lt.mp hlt)]
    exact ⟨rfl, h⟩

theorem readPieces_recorded {offset want pos done : Nat} {out : List UInt8} {resume : Resume}
    {window : Option DirectoryWindow} (hicb : icbAt info dev icb.at_ = .ok icb)
    (h : Reached info dev icb walk pos) (hresume : Recorded info dev resume) :
    Recorded info dev
      (readPieces info dev icb offset want walk pos out done resume window).resume := by
  fun_induction readPieces info dev icb offset want walk pos out done resume window with
  | case1 => exact hresume
  | case2 => exact hresume
  | case3 walk pos out done resume window hlt piece walk' hnext hinside within resume1 take
      error window' hread =>
    exact hresume.record hicb h hnext
  | case4 walk pos out done resume window hlt piece walk' hnext hinside within resume1 take
      data window' hread ih =>
    exact ih (h.step hnext) (hresume.record hicb h hnext)
  | case5 walk pos out done resume window hlt piece walk' hnext hinside ih =>
    exact ih (h.step hnext) hresume
  | case6 => exact hresume

def readFromStart (info : Info) (dev : Device) (icb : Icb) (offset len : Nat)
    (window : Option DirectoryWindow) : Except Error (List UInt8) :=
  if icb.size ≤ offset then .ok []
  else (readPieces info dev icb offset (min (icb.size - offset) len) (.new icb) 0
    [] 0 .default window).result

theorem readStreamWindow_spec {resume : Resume} {window window' : Option DirectoryWindow}
    (hresume : Recorded info dev resume) (hicb : icbAt info dev icb.at_ = .ok icb)
    (hwindow : Alike info dev window window') (offset len : Nat) :
    (readStreamWindow info dev icb resume offset len window).result =
        readFromStart info dev icb offset len window' ∧
      Recorded info dev (readStreamWindow info dev icb resume offset len window).resume ∧
      ∀ held ∈ (readStreamWindow info dev icb resume offset len window).window,
        held.Held info dev := by
  rw [readStreamWindow, readFromStart]
  split
  · exact ⟨rfl, hresume, hwindow.left⟩
  · obtain ⟨walk, pos, hwalk, hreached, hpos⟩ := hresume.resume hicb offset
    rw [hwalk]
    refine ⟨?_, readPieces_recorded hicb hreached hresume,
      (readPieces_same .default hwindow).2.left⟩
    change (readPieces _ _ _ _ _ walk pos _ _ _ _).result = _
    rw [← readPieces_skip hreached hpos]
    exact (readPieces_same _ hwindow).1

theorem icbAt_at {at_ : Location} (h : icbAt info dev at_ = .ok icb) : icb.at_ = at_ := by
  have hfixed : ∀ {block : List UInt8} {blockSize fixed : Nat},
      Icb.parseFixed at_ block blockSize fixed = .ok icb → icb.at_ = at_ := by
    intro block blockSize fixed h
    obtain ⟨_, -, h⟩ := except_bind_ok.mp h
    obtain ⟨_, -, h⟩ := except_bind_ok.mp h
    cases h
    rfl
  obtain ⟨offset, -, h⟩ := except_bind_ok.mp h
  obtain ⟨block, -, h⟩ := except_bind_ok.mp h
  rw [Icb.parse] at h
  split at h
  · cases h
  · split at h
    · exact hfixed h
    · split at h
      · exact hfixed h
      · cases h

namespace UdfFs

/-- A read of a file, or of a part of an identifier of a directory. -/
inductive Request where
  | read (node offset len : Nat)
  | readFid (node offset len : Nat)

def serve (fs : UdfFs) : Request → Except Error (List UInt8) × UdfFs
  | .read node offset len => fs.read node offset len
  | .readFid node offset len => fs.readFid node offset len

def run (fs : UdfFs) (requests : List Request) : UdfFs :=
  requests.foldl (fun fs request => (fs.serve request).2) fs

def mounted (dev : Device) (info : Info) : UdfFs := ⟨dev, info, .default, .default, .new⟩

/-- What a volume remembers is where walks over its entries stood. -/
structure Remembers (fs : UdfFs) (dev : Device) (info : Info) : Prop where
  device : fs.dev = dev
  volume : fs.info = info
  dirWalk : Recorded info dev fs.dirWalk
  fileWalk : Recorded info dev fs.fileWalk
  window : fs.directoryWindow.Held info dev

theorem icb_ok {fs : UdfFs} {node : Nat} (h : fs.icb node = .ok icb) :
    icbAt fs.info fs.dev icb.at_ = .ok icb := by
  rw [UdfFs.icb] at h
  split at h
  · cases h
  · rw [icbAt_at h]
    exact h

theorem file_ok {fs : UdfFs} {node : Nat} (h : fs.file node = .ok icb) :
    fs.icb node = .ok icb := by
  obtain ⟨found, hicb, h⟩ := except_bind_ok.mp h
  obtain ⟨_, -, h⟩ := except_bind_ok.mp h
  cases h
  exact hicb

theorem dir_ok {fs : UdfFs} {node : Nat} (h : fs.dir node = .ok icb) : fs.icb node = .ok icb := by
  obtain ⟨found, hicb, h⟩ := except_bind_ok.mp h
  obtain ⟨_, -, h⟩ := except_bind_ok.mp h
  cases h
  exact hicb

theorem Remembers.alike {fs : UdfFs} (h : fs.Remembers dev info) :
    Alike info dev (some fs.directoryWindow) (some .new) := by
  refine ⟨rfl, fun held hmem => ?_, fun held hmem => ?_⟩
  · cases hmem
    exact h.window
  · cases hmem
    exact .new

theorem alike_none : Alike info dev none none :=
  ⟨rfl, fun _ h => (by cases h), fun _ h => (by cases h)⟩

theorem Remembers.serve {fs : UdfFs} (h : fs.Remembers dev info) (request : Request) :
    (fs.serve request).2.Remembers dev info := by
  have halike := h.alike
  obtain ⟨rfl, rfl, hdir, hfile, hheld⟩ := h
  rcases request with ⟨node, offset, len⟩ | ⟨node, offset, len⟩
  · change (fs.read node offset len).2.Remembers _ _
    rw [UdfFs.read]
    split
    · exact ⟨rfl, rfl, hdir, hfile, hheld⟩
    · rename_i icb hicb
      obtain ⟨-, hrecorded, -⟩ := readStreamWindow_spec hfile
        (icb_ok (file_ok hicb)) alike_none offset len
      exact ⟨rfl, rfl, hdir, hrecorded, hheld⟩
  · change (fs.readFid node offset len).2.Remembers _ _
    rw [UdfFs.readFid]
    split
    · exact ⟨rfl, rfl, hdir, hfile, hheld⟩
    · rename_i icb hicb
      obtain ⟨-, hrecorded, hwindow⟩ :=
        readStreamWindow_spec hdir (icb_ok (dir_ok hicb)) halike offset len
      refine ⟨rfl, rfl, hrecorded, hfile, ?_⟩
      dsimp only
      rcases hout :
        (readStreamWindow fs.info fs.dev icb fs.dirWalk offset len
          (some fs.directoryWindow)).window
        with _ | window
      · exact hheld
      · exact hwindow window hout

theorem Remembers.run {fs : UdfFs} (h : fs.Remembers dev info) (requests : List Request) :
    (fs.run requests).Remembers dev info := by
  induction requests generalizing fs with
  | nil => exact h
  | cons request rest ih => exact ih (h.serve request)

theorem Remembers.mounted : (mounted dev info).Remembers dev info :=
  ⟨rfl, rfl, fun _ _ h => (by cases h), fun _ _ h => (by cases h), .new⟩

/-- Whatever was read before, a read gives what a walk from the first descriptor does, and no walk
goes on for ever. -/
theorem read_fromStart (dev : Device) (info : Info) (requests : List Request)
    (node offset len : Nat) :
    let fs := (mounted dev info).run requests
    (fs.read node offset len).1 =
        (fs.file node >>= fun icb => readFromStart info dev icb offset len none) ∧
      (fs.readFid node offset len).1 =
        (fs.dir node >>= fun icb => readFromStart info dev icb offset len (some .new)) ∧
      ∀ icb n walk, Turns info dev icb n walk → n ≤ 2 * maxDescriptors + 1 := by
  intro fs
  have hfs : fs.Remembers dev info := Remembers.mounted.run requests
  have hdev := hfs.device
  have hinfo := hfs.volume
  refine ⟨?_, ?_, fun icb n walk h => Nat.le_of_add_right_le (turns_le h)⟩
  · rw [UdfFs.read]
    split
    · rename_i hicb
      rw [hicb]
      rfl
    · rename_i icb hicb
      rw [hicb]
      have hat := icb_ok (file_ok hicb)
      rw [hdev, hinfo] at hat ⊢
      exact (readStreamWindow_spec hfs.fileWalk hat alike_none offset len).1
  · rw [UdfFs.readFid]
    split
    · rename_i hicb
      rw [hicb]
      rfl
    · rename_i icb hicb
      rw [hicb]
      have hat := icb_ok (dir_ok hicb)
      rw [hdev, hinfo] at hat ⊢
      exact (readStreamWindow_spec hfs.dirWalk hat hfs.alike offset len).1

section Samples

def sampleTag (identifier location sum : UInt8) : List UInt8 :=
  [identifier, 1, 2, 0, sum, 0, 0, 0, 0, 0, 0, 0, location, 0, 0, 0]

def sampleBlock (bytes : List UInt8) : List UInt8 :=
  bytes ++ List.replicate (512 - bytes.length) 0

def sampleEntry (location sum fileType : UInt8) (size : Nat) (ads : List UInt8) : List UInt8 :=
  sampleBlock (sampleTag 5 location sum ++ List.replicate 11 0 ++ [fileType] ++
    List.replicate 28 0 ++ u32Bytes size ++ List.replicate 112 0 ++ u32Bytes ads.length ++ ads)

def sampleAd (len block : Nat) : List UInt8 := u32Bytes len ++ u32Bytes block

/-- A file of three extents, the last one behind a continuation, and a directory of two. -/
def sampleBlocks : List (List UInt8) :=
  [ sampleEntry 0 8 5 1112
      (sampleAd 512 2 ++ sampleAd 512 3 ++ sampleAd (32 + Extent.continuation * 2 ^ 30) 1),
    sampleBlock (sampleTag 2 1 6 ++ [0, 0, 0, 0] ++ u32Bytes 8 ++ sampleAd 88 4),
    List.replicate 512 2, List.replicate 512 3, List.replicate 512 4,
    sampleEntry 5 13 4 600 (sampleAd 512 6 ++ sampleAd 88 7),
    List.replicate 512 6, List.replicate 512 7 ]

def sampleDevice : Device where
  blockSize := 512
  readBlocks index count := .ok ((sampleBlocks.drop index).take (count / 512)).flatten
  blockSize_pos := Nat.succ_pos 511

def sampleInfo : Info := ⟨512, 8 * 512, [⟨0, 8⟩]⟩

def sampleRequests : List Request := [.read 1 1030 8, .readFid 6 510 4, .read 1 600 20]

def sampleIcb : Icb := ⟨⟨0, 0⟩, 5, 0, 1112, 176, 24, sampleBlocks.headD []⟩

def sampleNext (walk : Walk) : Option Walk :=
  (walk.turn sampleInfo sampleDevice sampleIcb).toOption.bind Turn.walk?

def sampleWalk : Nat → Walk
  | 0 => .new sampleIcb
  | n + 1 => (sampleNext (sampleWalk n)).getD (sampleWalk n)

theorem turns_sample {n : Nat} (h : ∀ k < n, (sampleNext (sampleWalk k)).isSome) :
    Turns sampleInfo sampleDevice sampleIcb n (sampleWalk n) := by
  induction n with
  | zero => exact .start
  | succ n ih =>
    have hturns := ih fun k hk => h k (Nat.lt_succ_of_lt hk)
    obtain ⟨walk, hwalk⟩ := Option.isSome_iff_exists.mp (h n (Nat.lt_succ_self n))
    rw [sampleWalk, hwalk]
    rw [sampleNext] at hwalk
    rcases hturn : (sampleWalk n).turn sampleInfo sampleDevice sampleIcb with error | turn
    · rw [hturn] at hwalk
      cases hwalk
    · rw [hturn] at hwalk
      exact .turn hturns hturn hwalk

theorem read_fromStart_sample :
    let fs := (mounted sampleDevice sampleInfo).run sampleRequests
    (fs.read 1 1020 8).1.toOption = some [3, 3, 3, 3, 4, 4, 4, 4] ∧
      (fs.readFid 6 510 4).1.toOption = some [6, 6, 7, 7] ∧
      Turns sampleInfo sampleDevice sampleIcb 4 (sampleWalk 4) ∧ 4 ≤ 2 * maxDescriptors + 1 := by
  intro fs
  obtain ⟨hread, -, hle⟩ := read_fromStart sampleDevice sampleInfo sampleRequests 1 1020 8
  obtain ⟨-, hfid, -⟩ := read_fromStart sampleDevice sampleInfo sampleRequests 6 510 4
  have hturns := @turns_sample 4 (by decide +kernel)
  refine ⟨?_, ?_, hturns, hle _ _ _ hturns⟩
  · rw [hread]
    decide +kernel
  · rw [hfid]
    decide +kernel

end Samples

end UdfFs

end Hadris.Udf
