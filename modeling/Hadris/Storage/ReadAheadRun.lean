import Hadris.Storage.ReadAhead

namespace Hadris.Storage

variable {β : Type} [Inhabited β]

namespace Disk

/-- The result of a read is the answer of the disk: its bytes of blocks it has, or the error
it gives itself. -/
def Answers (d : Disk β) (first : Nat) (buf : List β) : Except Error (List β) → Prop
  | .ok bytes => d.check (.read first buf.length) = .ok () ∧
      bytes = bytesOf d.contents (first * d.shape.size) buf.length
  | .error error => (d.serve (.read first buf.length) buf).1 = .error error

/-- `after` is the disk when a read at block `first` has failed. -/
def FailedRead (d : Disk β) (first : Nat) (after : Disk β) : Prop :=
  ∃ (buf : List β) (error : Error),
    (d.serve (.read first buf.length) buf).1 = .error error ∧
      after = (d.serve (.read first buf.length) buf).2.2

/-- The result of a poll of a read is the answer of the disk that is at it. -/
def PollAnswers [DecidableEq β] (d : Disk β) (child : Ticket β) (first : Nat) (buf : List β) :
    Answer → List β → Prop
  | .done, bytes => d.check (.read first buf.length) = .ok () ∧
      bytes = bytesOf d.contents (d.begins (.read first buf.length) child) buf.length
  | .failed error, _ => (d.advance child (.read first buf.length) buf).1 = .failed error
  | .pending, _ => True

/-- `after` is the disk when a poll of a read at block `first` has failed. -/
def FailedPoll [DecidableEq β] (d : Disk β) (child : Ticket β) (first : Nat) (after : Disk β) :
    Prop :=
  ∃ (buf : List β) (error : Error),
    (d.advance child (.read first buf.length) buf).1 = .failed error ∧
      after = (d.advance child (.read first buf.length) buf).2.2.2

end Disk

namespace ReadAhead

/-- What a client does with a blocking device that reads ahead. -/
inductive Op (β : Type) where
  | read (first : Nat) (buf : List β)
  | write (first : Nat) (data : List β)
  | flush
  | clear
  | getMut (inner : Disk β)

def apply (ra : ReadAhead β) : Op β → ReadAhead β
  | .read first buf => (ra.readBlocks first buf).2
  | .write first data => (ra.writeBlocks first data).2
  | .flush => ra.flush.2
  | .clear => ra.clear
  | .getMut inner => ra.getMut inner

def runOps (ra : ReadAhead β) : List (Op β) → ReadAhead β
  | [] => ra
  | op :: rest => (ra.apply op).runOps rest

def measures (ra : ReadAhead β) : Op β → Bool
  | .write _ _ => decide (ra.windows.Measures ra.inner.shape.size)
  | _ => true

def measuresAll (ra : ReadAhead β) : List (Op β) → Bool
  | [] => true
  | op :: rest => ra.measures op && (ra.apply op).measuresAll rest

inductive Request (β : Type) where
  | read (first : Nat) (buf : List β)
  | write (first : Nat) (data : List β)
  | flush

/-- A call that was begun. -/
structure Job (β : Type) where
  request : Request β
  op : ReadAheadOperation β
  buf : List β

/-- A polled device that reads ahead and the call that is under way. -/
structure Session (β : Type) where
  ra : ReadAhead β
  job : Option (Job β)

/-- What a client does with a polled device that reads ahead. -/
inductive Action (β : Type) where
  | begin (request : Request β)
  | poll
  | cancel (landed : Nat → Bool)
  | clear
  | getMut (inner : Disk β)

def Job.new (request : Request β) : Job β where
  request := request
  op := .new
  buf := match request with
    | .read _ buf => buf
    | _ => []

namespace Session

variable [DecidableEq β]

def new (inner : Disk β) (capacity : Nat) : Session β := ⟨.new inner capacity, none⟩

def pollRequest (request : Request β) (p : Polled β) : Answer × Polled β :=
  match request with
  | .read first _ => pollRead first p
  | .write first data => pollWrite first data p
  | .flush => pollFlush p

def poll (ra : ReadAhead β) (job : Job β) : Session β :=
  match pollRequest job.request ⟨ra, job.op, job.buf⟩ with
  | (.pending, p) => ⟨p.ra, some ⟨job.request, p.op, p.buf⟩⟩
  | (_, p) => ⟨p.ra, none⟩

def step (s : Session β) (action : Action β) : Session β :=
  match s.job, action with
  | none, .begin request => ⟨s.ra, some (.new request)⟩
  | none, .clear => ⟨s.ra.clear, none⟩
  | none, .getMut inner => ⟨s.ra.getMut inner, none⟩
  | some job, .poll => poll s.ra job
  | some job, .cancel landed => ⟨cancel landed ⟨s.ra, job.op, job.buf⟩, none⟩
  | _, _ => s

def run (s : Session β) : List (Action β) → Session β
  | [] => s
  | action :: rest => (s.step action).run rest

/-- A write begins as a blocking one does, and a fetch that is as long as its request was
no longer when it was planned. -/
def measures (s : Session β) (action : Action β) : Bool :=
  match s.job, action with
  | some job, .poll => match job.request with
    | .read _ _ => job.op.phase != 1 ||
        job.op.fetched * s.ra.inner.shape.size != job.buf.length ||
      job.op.fetched * s.ra.windows.blockSize == job.buf.length
    | .write _ _ => job.op.child != .fresh || decide (s.ra.windows.Measures s.ra.inner.shape.size)
    | .flush => true
  | _, _ => true

def measuresAll (s : Session β) : List (Action β) → Bool
  | [] => true
  | action :: rest => s.measures action && (s.step action).measuresAll rest

end Session

/-- Every read is what the device answers, as it is or as a failed prefetch left it. -/
def Transparent (ra : ReadAhead β) : Prop :=
  ∀ (first : Nat) (buf : List β), ∃ d, (d = ra.inner ∨ ra.inner.FailedRead first d) ∧
    d.Answers first buf (ra.readBlocks first buf).1

/-- The windows hold blocks of the device as they are. -/
def Fresh (ra : ReadAhead β) : Prop := ra.windows.Fresh ra.inner.contents

variable {ra : ReadAhead β}

theorem readInner_spec (h : ra.Fresh) (first : Nat) (buf : List β) :
    ra.inner.Answers first buf (ra.readInner first buf).1 ∧ (ra.readInner first buf).2.Fresh := by
  obtain ⟨hcontents, hbytes⟩ := ra.inner.serve_read first buf
  rw [readInner]
  rcases hserve : ra.inner.serve (.read first buf.length) buf with ⟨_ | _, bytes, inner⟩ <;>
    rw [hserve] at hcontents hbytes
  · refine ⟨?_, ?_⟩
    · rw [Disk.Answers, hserve]
    · rw [Fresh, hcontents]
      exact h
  · refine ⟨hbytes rfl, ?_⟩
    rw [Fresh, hcontents]
    exact h

theorem readBlocks_spec (h : ra.Fresh) (first : Nat) (buf : List β) :
    (∃ d, (d = ra.inner ∨ ra.inner.FailedRead first d) ∧
      d.Answers first buf (ra.readBlocks first buf).1) ∧ (ra.readBlocks first buf).2.Fresh := by
  obtain ⟨hserves, hfresh⟩ := Windows.plan_spec h ra.inner.shape first buf.length
  rw [readBlocks]
  rcases hplan : ra.windows.plan ra.inner.shape first
    buf.length with ⟨_ | _ | ⟨slot, fetched⟩, w⟩ <;>
    rw [hplan] at hserves hfresh
  · exact ⟨⟨ra.inner, .inl rfl, hserves⟩, hfresh⟩
  · obtain ⟨hanswers, hinner⟩ := @readInner_spec _ _ ⟨ra.inner, w⟩ hfresh first buf
    exact ⟨⟨ra.inner, .inl rfl, hanswers⟩, hinner⟩
  · obtain ⟨hcheck, hsize, hvacant⟩ := hserves
    have htarget : (w.target slot fetched).length = fetched * ra.inner.shape.size := by
      rw [hvacant.length_target, hsize]
    obtain ⟨hcontents, hbytes⟩ := ra.inner.serve_read first (w.target slot fetched)
    dsimp only
    rcases hserve : ra.inner.serve (.read first (w.target slot fetched).length)
      (w.target slot fetched)
      with ⟨error | _, bytes, inner⟩ <;> rw [hserve] at hcontents hbytes
    · have hfresh' : (ReadAhead.mk inner (w.store slot bytes)).Fresh := by
        rw [Fresh, hcontents]
        exact hfresh.store hvacant.empty bytes
      dsimp only
      split
      · -- Nothing but the request was fetched.
        rename_i hexact
        refine ⟨⟨ra.inner, .inl rfl, ?_⟩, hfresh'⟩
        rw [Disk.Answers, ← hexact, ← htarget, ra.inner.serve_buf _ buf
          (w.target slot fetched), hserve]
      · obtain ⟨hanswers, hinner⟩ := readInner_spec hfresh' first buf
        exact ⟨⟨inner, .inr ⟨w.target slot fetched, error, by rw [hserve], by rw [hserve]⟩,
          hanswers⟩, hinner⟩
    · obtain ⟨-, hdata⟩ := hbytes rfl
      obtain ⟨hread, hfill⟩ := hvacant.fill hfresh
        (show bytes = bytesOf ra.inner.contents (first * w.blockSize) (fetched * w.blockSize) by
          rw [hsize, ← htarget]
          exact hdata)
      refine ⟨⟨ra.inner, .inl rfl, hcheck, ?_⟩, ?_⟩
      · rw [← hsize]
        exact hread
      · rw [Fresh]
        dsimp only at hcontents ⊢
        rw [hcontents]
        exact hfill

theorem writeBlocks_spec (h : ra.Fresh) (first : Nat) (data : List β)
    (hmeasures : ra.windows.Measures ra.inner.shape.size) :
    (ra.writeBlocks first data).2.Fresh := by
  rw [Fresh]
  refine h.invalidate hmeasures ra.inner.shape.pos fun i hi => ?_
  exact ra.inner.serve_outside (.write first data) [] hi

theorem flush_spec (h : ra.Fresh) : ra.flush.2.Fresh := by
  have hcontents : (ra.inner.serve .flush []).2.2.contents = ra.inner.contents := by
    funext i
    apply ra.inner.serve_outside .flush []
    exact fun hi => absurd hi.2 (Nat.not_lt.mpr hi.1)
  rw [Fresh, flush]
  dsimp only
  rw [hcontents]
  exact h

section

variable [DecidableEq β] {first : Nat} {data : List β} {p : Polled β}

/-- Where a read at block `first` stands. -/
def ReadAt (first : Nat) (p : Polled β) : Prop :=
  p.ra.Fresh ∧ ((p.op.phase = 0 ∧ p.op.child = .fresh) ∨
    (p.op.phase = 1 ∧ p.ra.windows.Vacant p.op.slot p.op.fetched first p.buf.length ∧
      p.op.child = .busy (first * p.ra.windows.blockSize)
        (.read first (p.op.fetched * p.ra.windows.blockSize))) ∨
    (p.op.phase = 2 ∧ ∃ start, p.op.child = .busy start (.read first p.buf.length)))

/-- A poll of a read with `buf` is the answer of `d`, and leaves the read where its next poll
expects it. -/
structure Goes (d : Disk β) (child : Ticket β) (first : Nat) (buf : List β)
    (result : Answer × Polled β) : Prop where
  answers : d.PollAnswers child first buf result.1 result.2.buf
  fresh : result.2.ra.Fresh
  pending : result.1 = .pending → ReadAt first result.2

theorem pollInner_read (h : p.ra.Fresh) (hphase : p.op.phase = 2)
    (hown : p.op.child = .fresh ∨ ∃ start, p.op.child = .busy start (.read first p.buf.length)) :
    Goes p.ra.inner p.op.child first p.buf (pollInner (.read first p.buf.length) p) := by
  have hcontents := p.ra.inner.advance_contents p.op.child (.read first p.buf.length) p.buf rfl
  have hlength := p.ra.inner.length_advance p.op.child (.read first p.buf.length) p.buf
  have hdone := fun hdone => @Disk.advance_done _ _ p.ra.inner _ p.buf _ first hown hdone
  have hpending := fun hpending =>
    @Disk.advance_pending _ _ p.ra.inner p.op.child (.read first p.buf.length) p.buf _ hpending
  rw [pollInner]
  rcases hadvance : p.ra.inner.advance p.op.child (.read first p.buf.length) p.buf with
    ⟨answer, child, buf, inner⟩
  rw [hadvance] at hcontents hlength hdone hpending
  dsimp only at hcontents hlength hdone hpending ⊢
  have hfresh : (ReadAhead.mk inner p.ra.windows).Fresh := by
    rw [Fresh, hcontents]
    exact h
  refine ⟨?_, hfresh, fun hanswer => ⟨hfresh, .inr (.inr ⟨hphase,
    p.ra.inner.begins (.read first p.buf.length) p.op.child, ?_⟩)⟩⟩
  · cases answer with
    | done => exact hdone rfl
    | failed error => rw [Disk.PollAnswers, hadvance]
    | pending => trivial
  · dsimp only
    rw [hpending hanswer, hlength]

theorem advance_of_check {d : Disk β} {child : Ticket β} {call : Call β}
    {buf : List β} {error : Error}
    (h : d.check call = .error error) : (d.advance child call buf).1 = .failed error := by
  rw [Disk.advance, h]

theorem goes_of_check {error : Error} (h : p.ra.Fresh)
    (hcheck : p.ra.inner.check (.read first p.buf.length) = .error error) :
    Goes p.ra.inner p.op.child first p.buf (.failed error, p) := by
  refine ⟨advance_of_check hcheck, h, ?_⟩
  intro hpending
  cases hpending

theorem pollDirect_spec (h : p.ra.Fresh) (hphase : p.op.phase = 2)
    (hchild : p.op.child = .fresh) :
    Goes p.ra.inner p.op.child first p.buf (pollDirect first p) := by
  rw [pollDirect]
  cases hcheck : p.ra.inner.check (.read first p.buf.length) with
  | error error => exact goes_of_check h hcheck
  | ok _ => exact pollInner_read h hphase (.inl hchild)

/-- The device and the operation that a poll of a read asks at last. -/
def Asks (first : Nat) (p : Polled β) (d : Disk β) (child : Ticket β) : Prop :=
  d = p.ra.inner ∧ child = p.op.child ∨
    child = .fresh ∧ p.ra.inner.FailedPoll p.op.child first d

theorem pollFetch_spec (h : p.ra.Fresh) (hphase : p.op.phase = 1)
    (hvacant : p.ra.windows.Vacant p.op.slot p.op.fetched first p.buf.length)
    (hchild : p.op.child = .fresh ∧ p.ra.windows.blockSize = p.ra.inner.shape.size ∨
      p.op.child = .busy (first * p.ra.windows.blockSize)
        (.read first (p.op.fetched * p.ra.windows.blockSize)))
    (hsize : p.op.fetched * p.ra.inner.shape.size = p.buf.length →
      p.op.fetched * p.ra.windows.blockSize = p.buf.length)
    (hcheck : p.ra.inner.check (.read first p.buf.length) = .ok ()) :
    ∃ d child, Asks first p d child ∧ Goes d child first p.buf (pollFetch first p) := by
  obtain ⟨⟨inner, w⟩, op, buf⟩ := p
  dsimp only at *
  have htarget : (w.target op.slot op.fetched).length = op.fetched * w.blockSize :=
    hvacant.length_target
  have hcontents := inner.advance_contents op.child
    (.read first (w.target op.slot op.fetched).length) (w.target op.slot op.fetched) rfl
  have hdone := fun hdone => @Disk.advance_done _ _ inner op.child
    (w.target op.slot op.fetched) _ first
    (hchild.imp And.left fun hbusy => ⟨_, hbusy.trans (by rw [htarget])⟩) hdone
  have hpending := fun hpending => @Disk.advance_pending _ _ inner op.child
    (.read first (w.target op.slot op.fetched).length) (w.target op.slot op.fetched) _ hpending
  have hbegins : ∀ len, inner.begins (.read first len) op.child = first * w.blockSize := by
    intro len
    rcases hchild with ⟨hchild, hblock⟩ | hchild
    · rw [hchild, Disk.begins, hblock]
      rfl
    · rw [hchild, Disk.begins]
  rw [pollFetch]
  dsimp only
  rcases hadvance : inner.advance op.child (.read first (w.target op.slot op.fetched).length)
    (w.target op.slot op.fetched) with ⟨answer, child, bytes, after⟩
  rw [hadvance] at hcontents hdone hpending
  dsimp only at hcontents hdone hpending ⊢
  have hfresh : (ReadAhead.mk after (w.store op.slot bytes)).Fresh := by
    rw [Fresh, hcontents]
    exact Windows.Fresh.store h hvacant.empty bytes
  cases answer with
  | done =>
    obtain ⟨-, hdata⟩ := hdone rfl
    obtain ⟨hread, hfill⟩ := hvacant.fill h (hdata.trans (by rw [hbegins, htarget]))
    refine ⟨inner, op.child, .inl ⟨rfl, rfl⟩, ⟨hcheck, ?_⟩, ?_, ?_⟩
    · dsimp only
      rw [hbegins]
      exact hread
    · rw [Fresh]
      dsimp only
      rw [hcontents]
      exact hfill
    · intro hanswer
      cases hanswer
  | failed error =>
    dsimp only
    split
    · -- Nothing but the request was fetched.
      rename_i hexact
      refine ⟨inner, op.child, .inl ⟨rfl, rfl⟩, ?_, hfresh, ?_⟩
      · dsimp only
        rw [Disk.PollAnswers, ← hsize hexact, ← htarget,
          inner.advance_buf _ _ buf (w.target op.slot op.fetched), hadvance]
      · intro hanswer
        cases hanswer
    · have hretry := @pollDirect_spec β _ _ first ⟨⟨after, w.store op.slot bytes⟩,
        ⟨.fresh, false, 2, op.slot, op.fetched⟩, buf⟩ hfresh rfl rfl
      refine ⟨after, .fresh, .inr ⟨rfl, w.target op.slot op.fetched, error, ?_, ?_⟩, hretry⟩ <;>
        rw [hadvance]
  | pending =>
    refine ⟨inner, op.child, .inl ⟨rfl, rfl⟩, trivial, hfresh, fun _ => ⟨hfresh, .inr (.inl ?_)⟩⟩
    refine ⟨hphase, hvacant.store bytes, ?_⟩
    dsimp only
    rw [hpending rfl, hbegins, htarget]
    rfl

theorem pollRead_spec (h : ReadAt first p)
    (hsize : p.op.phase = 1 → p.op.fetched * p.ra.inner.shape.size = p.buf.length →
      p.op.fetched * p.ra.windows.blockSize = p.buf.length) :
    ∃ d child, Asks first p d child ∧ Goes d child first p.buf (pollRead first p) := by
  obtain ⟨hfresh, hat⟩ := h
  rw [pollRead]
  cases hcheck : p.ra.inner.check (.read first p.buf.length) with
  | error error => exact ⟨_, _, .inl ⟨rfl, rfl⟩, goes_of_check hfresh hcheck⟩
  | ok _ =>
    dsimp only
    rcases hat with ⟨hphase, hchild⟩ | ⟨hphase, hvacant, hchild⟩ | ⟨hphase, hchild⟩
    · obtain ⟨hserves, hplan⟩ := Windows.plan_spec hfresh p.ra.inner.shape first p.buf.length
      rw [if_pos hphase]
      rcases hrun : p.ra.windows.plan p.ra.inner.shape first p.buf.length with
        ⟨buf | _ | ⟨slot, fetched⟩, w⟩ <;> rw [hrun] at hserves hplan
      · refine ⟨_, _, .inl ⟨rfl, rfl⟩, ⟨hcheck, ?_⟩, hplan, fun hpending => by cases hpending⟩
        rw [hchild, Disk.begins]
        exact hserves.2
      · exact ⟨_, _, .inl ⟨rfl, rfl⟩, @pollInner_read _ _ _ first
          ⟨{ p.ra with windows := w }, { p.op with phase := 2 }, p.buf⟩ hplan rfl (.inl hchild)⟩
      · obtain ⟨-, hblock, hvacant⟩ := hserves
        exact @pollFetch_spec _ _ _ first ⟨{ p.ra with windows := w },
          { p.op with phase := 1, slot := slot, fetched := fetched }, p.buf⟩ hplan rfl hvacant
          (.inl ⟨hchild, hblock⟩) (fun hexact => by rw [hblock]; exact hexact) hcheck
    · rw [if_neg (by rw [hphase]; decide), if_pos hphase]
      exact pollFetch_spec hfresh hphase hvacant (.inr hchild) (hsize hphase) hcheck
    · rw [if_neg (by rw [hphase]; decide), if_neg (by rw [hphase]; decide)]
      exact ⟨_, _, .inl ⟨rfl, rfl⟩, pollInner_read hfresh hphase (.inr hchild)⟩

/-- Where a write of `data` at block `first` stands: nothing of it is in the windows. -/
def WriteAt (first : Nat) (data : List β) (p : Polled β) : Prop :=
  (p.op.child = .fresh ∧ p.ra.Fresh) ∨
    ∃ start, p.op.child = .busy start (.write first data) ∧
      ∀ v, (∀ i, ¬ (start ≤ i ∧ i < start + data.length) → v i = p.ra.inner.contents i) →
        p.ra.windows.Fresh v

omit [Inhabited β] [DecidableEq β] in
theorem WriteAt.fresh (h : WriteAt first data p) : p.ra.Fresh := by
  rcases h with ⟨-, h⟩ | ⟨start, -, h⟩
  · exact h
  · exact h _ fun i _ => rfl

theorem pollInner_apart (call : Call β)
    (h : ∀ v, (∀ i, ¬ (p.ra.inner.begins call p.op.child ≤ i ∧
        i < p.ra.inner.begins call p.op.child + call.data.length) → v i = p.ra.inner.contents i) →
      p.ra.windows.Fresh v) :
    (pollInner call p).2.ra.Fresh ∧ ((pollInner call p).1 = .pending →
      (pollInner call p).2.op.child = .busy (p.ra.inner.begins call p.op.child) call ∧
        ∀ v, (∀ i, ¬ (p.ra.inner.begins call p.op.child ≤ i ∧
            i < p.ra.inner.begins call p.op.child + call.data.length) →
            v i = (pollInner call p).2.ra.inner.contents i) →
          (pollInner call p).2.ra.windows.Fresh v) := by
  refine ⟨h _ fun i hi => p.ra.inner.advance_outside p.op.child call p.buf hi, fun hpending => ?_⟩
  refine ⟨Disk.advance_pending hpending, fun v hv => h v fun i hi => ?_⟩
  exact (hv i hi).trans (p.ra.inner.advance_outside p.op.child call p.buf hi)

theorem pollWrite_spec (h : WriteAt first data p)
    (hmeasures : p.op.child = .fresh → p.ra.windows.Measures p.ra.inner.shape.size) :
    (pollWrite first data p).2.ra.Fresh ∧
      ((pollWrite first data p).1 = .pending →
        WriteAt first data (pollWrite first data p).2) := by
  rw [pollWrite]
  cases p.ra.inner.check (.write first data) with
  | error error =>
    refine ⟨h.fresh, ?_⟩
    intro hpending
    cases hpending
  | ok _ =>
    have hapart := @pollInner_apart _ _ _
      ⟨{ p.ra with windows := p.ra.windows.invalidate p.ra.inner.shape.size first data.length },
        p.op, p.buf⟩
      (.write first data) fun v hv => by
        rcases h with ⟨hchild, h⟩ | ⟨start, hchild, h⟩
        · refine h.invalidate (hmeasures hchild) p.ra.inner.shape.pos fun i hi => hv i ?_
          rw [hchild]
          exact hi
        · rw [hchild] at hv
          exact (h v hv).invalidate_of_fresh
    exact ⟨hapart.1, fun hpending => .inr ⟨_, hapart.2 hpending⟩⟩

theorem pollFlush_spec (h : p.ra.Fresh) : (pollFlush p).2.ra.Fresh := by
  have hcontents := p.ra.inner.advance_contents p.op.child .flush p.buf rfl
  rw [Fresh, pollFlush, pollInner]
  dsimp only
  rw [hcontents]
  exact h

omit [DecidableEq β] in
theorem cancel_fresh (landed : Nat → Bool) (h : p.ra.Fresh)
    (hapart : ∀ start call, p.op.child = .busy start call →
      ∀ v, (∀ i, ¬ (start ≤ i ∧ i < start + call.data.length) → v i = p.ra.inner.contents i) →
        p.ra.windows.Fresh v) : (cancel landed p).Fresh := by
  rw [cancel]
  split
  · rename_i start call hchild
    split
    · refine hapart start call hchild _ fun i hi => ?_
      rcases landBlocks_lands landed p.ra.inner.contents start call.data i with hland | hland
      · exact hland
      · exact hland.trans (putBlocks_outside hi)
    · exact h
  · exact h

end

/-- Where a call under way stands. -/
def JobAt (ra : ReadAhead β) (job : Job β) : Prop :=
  match job.request with
  | .read first _ => ReadAt first ⟨ra, job.op, job.buf⟩
  | .write first data => WriteAt first data ⟨ra, job.op, job.buf⟩
  | .flush => ra.Fresh ∧ ∀ start call, job.op.child = .busy start call → call = .flush

omit [Inhabited β] in
theorem JobAt.fresh {job : Job β} (h : JobAt ra job) : ra.Fresh := by
  obtain ⟨request, op, buf⟩ := job
  cases request with
  | read first _ => exact h.1
  | write first data => exact WriteAt.fresh h
  | flush => exact h.1

omit [Inhabited β] in
theorem JobAt.new (h : ra.Fresh) (request : Request β) : JobAt ra (.new request) := by
  cases request with
  | read first buf => exact ⟨h, .inl ⟨rfl, rfl⟩⟩
  | write first data => exact .inl ⟨rfl, h⟩
  | flush =>
    refine ⟨h, fun start call hchild => ?_⟩
    cases hchild

omit [Inhabited β] in
theorem Fresh.of_nil {start : Nat} {v : Nat → β} (h : ra.Fresh)
    (hv : ∀ i, ¬ (start ≤ i ∧ i < start + 0) → v i = ra.inner.contents i) :
    ra.windows.Fresh v := by
  have heq : v = ra.inner.contents := by
    funext i
    exact hv i fun hi => absurd hi.2 (Nat.not_lt.mpr hi.1)
  rw [heq]
  exact h

theorem JobAt.cancel {job : Job β} (h : JobAt ra job) (landed : Nat → Bool) :
    (cancel landed ⟨ra, job.op, job.buf⟩).Fresh := by
  refine cancel_fresh landed h.fresh fun start call hchild v hv => ?_
  obtain ⟨request, op, buf⟩ := job
  dsimp only at hchild
  cases request with
  | read first _ =>
    obtain ⟨hfresh, ⟨-, hat⟩ | ⟨-, -, hat⟩ | ⟨-, _, hat⟩⟩ := h
    · rw [hat] at hchild
      cases hchild
    · rw [hat] at hchild
      cases hchild
      exact hfresh.of_nil hv
    · rw [hat] at hchild
      cases hchild
      exact hfresh.of_nil hv
  | write first data =>
    rcases h with ⟨hat, -⟩ | ⟨_, hat, h⟩
    · rw [hat] at hchild
      cases hchild
    · rw [hat] at hchild
      cases hchild
      exact h v hv
  | flush =>
    obtain ⟨hfresh, hflush⟩ := h
    cases hflush start call hchild
    exact hfresh.of_nil hv

namespace Session

variable [DecidableEq β] {s : Session β} {action : Action β}

/-- The windows of a session hold blocks of the device as they are. -/
def Inv (s : Session β) : Prop :=
  match s.job with
  | some job => JobAt s.ra job
  | none => s.ra.Fresh

/-- The next poll of a read is what the device answers, as it is or as a failed prefetch
left it. -/
def Transparent (s : Session β) : Prop :=
  ∀ job first buf, s.job = some job → job.request = .read first buf → s.measures .poll = true →
    ∃ d child, Asks first ⟨s.ra, job.op, job.buf⟩ d child ∧
      d.PollAnswers child first job.buf (pollRead first ⟨s.ra, job.op, job.buf⟩).1
        (pollRead first ⟨s.ra, job.op, job.buf⟩).2.buf

omit [Inhabited β] [DecidableEq β] in
theorem Inv.fresh (h : Inv s) : s.ra.Fresh := by
  obtain ⟨ra, _ | job⟩ := s
  · exact h
  · exact JobAt.fresh h

theorem read_spec {job : Job β} {first : Nat} {buf : List β} (h : JobAt s.ra job)
    (hjob : s.job = some job) (hrequest : job.request = .read first buf)
    (hmeasures : s.measures .poll = true) :
    ∃ d child, Asks first ⟨s.ra, job.op, job.buf⟩ d child ∧
      Goes d child first job.buf (pollRead first ⟨s.ra, job.op, job.buf⟩) := by
  rw [JobAt, hrequest] at h
  refine pollRead_spec h fun hphase hexact => ?_
  dsimp only at hphase hexact ⊢
  simp only [measures, hjob, hrequest, hphase, hexact, bne_self_eq_false, Bool.false_or,
    beq_iff_eq] at hmeasures
  exact hmeasures

omit [Inhabited β] in
theorem begin_measures {job : Job β} {first : Nat} {data : List β} (hjob : s.job = some job)
    (hrequest : job.request = .write first data) (hmeasures : s.measures .poll = true)
    (hchild : job.op.child = .fresh) : s.ra.windows.Measures s.ra.inner.shape.size := by
  simp only [measures, hjob, hrequest, hchild, bne_self_eq_false, Bool.false_or,
    decide_eq_true_eq] at hmeasures
  exact hmeasures

theorem Inv.transparent (h : Inv s) : s.Transparent := by
  intro job first buf hjob hrequest hmeasures
  have hat : JobAt s.ra job := by
    rw [Inv, hjob] at h
    exact h
  obtain ⟨d, child, hasks, hgoes⟩ := read_spec hat hjob hrequest hmeasures
  exact ⟨d, child, hasks, hgoes.answers⟩

theorem poll_inv {job : Job β}
    (hfresh : (pollRequest job.request ⟨s.ra, job.op, job.buf⟩).2.ra.Fresh)
    (hat : (pollRequest job.request ⟨s.ra, job.op, job.buf⟩).1 = .pending →
      JobAt (pollRequest job.request ⟨s.ra, job.op, job.buf⟩).2.ra ⟨job.request,
        (pollRequest job.request ⟨s.ra, job.op, job.buf⟩).2.op,
        (pollRequest job.request ⟨s.ra, job.op, job.buf⟩).2.buf⟩) : Inv (poll s.ra job) := by
  rw [poll]
  rcases hrun : pollRequest job.request ⟨s.ra, job.op, job.buf⟩ with ⟨_ | _ | _, p⟩ <;>
    rw [hrun] at hfresh hat
  · exact hfresh
  · exact hfresh
  · exact hat rfl

theorem poll_spec {job : Job β} (h : JobAt s.ra job) (hjob : s.job = some job)
    (hmeasures : s.measures .poll = true) : Inv (poll s.ra job) := by
  obtain ⟨request, op, buf⟩ := job
  apply poll_inv
  all_goals dsimp only
  · cases request with
    | read first bytes =>
      obtain ⟨_, _, -, hgoes⟩ := read_spec h hjob rfl hmeasures
      exact hgoes.fresh
    | write first data =>
      exact (pollWrite_spec h (begin_measures hjob rfl hmeasures)).1
    | flush => exact pollFlush_spec h.1
  · intro hpending
    cases request with
    | read first bytes =>
      obtain ⟨_, _, -, hgoes⟩ := read_spec h hjob rfl hmeasures
      exact hgoes.pending hpending
    | write first data =>
      exact (pollWrite_spec h (begin_measures hjob rfl hmeasures)).2 hpending
    | flush =>
      refine ⟨pollFlush_spec h.1, fun start call hchild => ?_⟩
      have hbusy := @Disk.advance_pending _ _ s.ra.inner op.child .flush buf _ hpending
      have hcall := hbusy.symm.trans hchild
      cases hcall
      rfl

theorem step_inv (h : Inv s) (hmeasures : s.measures action = true) : Inv (s.step action) := by
  obtain ⟨ra, job⟩ := s
  cases job with
  | none =>
    cases action with
    | begin request => exact JobAt.new h request
    | clear => exact Windows.clear_fresh _ _
    | getMut inner => exact Windows.clear_fresh _ _
    | poll => exact h
    | cancel landed => exact h
  | some job =>
    cases action with
    | poll => exact @poll_spec _ _ _ ⟨ra, some job⟩ job h rfl hmeasures
    | cancel landed => exact JobAt.cancel h landed
    | begin request => exact h
    | clear => exact h
    | getMut inner => exact h

theorem run_inv (actions : List (Action β)) (h : Inv s)
    (hmeasures : s.measuresAll actions = true) :
    Inv (s.run actions) := by
  induction actions generalizing s with
  | nil => exact h
  | cons action rest ih =>
    rw [measuresAll, Bool.and_eq_true] at hmeasures
    exact ih (step_inv h hmeasures.1) hmeasures.2

end Session

theorem apply_spec (h : ra.Fresh) (op : Op β) (hmeasures : ra.measures op = true) :
    (ra.apply op).Fresh := by
  cases op with
  | read first buf => exact (readBlocks_spec h first buf).2
  | write first data => exact writeBlocks_spec h first data (of_decide_eq_true hmeasures)
  | flush => exact flush_spec h
  | clear => exact Windows.clear_fresh _ _
  | getMut inner => exact Windows.clear_fresh _ _

theorem runOps_spec (ops : List (Op β)) (h : ra.Fresh) (hmeasures : ra.measuresAll ops = true) :
    (ra.runOps ops).Fresh := by
  induction ops generalizing ra with
  | nil => exact h
  | cons op rest ih =>
    rw [measuresAll, Bool.and_eq_true] at hmeasures
    exact ih (apply_spec h op hmeasures.1) hmeasures.2

omit [Inhabited β] in
theorem new_fresh (inner : Disk β) (capacity : Nat) : (new inner capacity).Fresh :=
  fun _ => Window.fresh_of_empty rfl

/-- Reading ahead cannot be seen in a run whose writes are counted in the blocks that the
windows hold, and whose fetches are measured as they were planned. -/
theorem transparent_while_writes_measure [DecidableEq β] (inner : Disk β) (capacity : Nat) :
    (∀ ops : List (Op β), (new inner capacity).measuresAll ops = true →
      ((new inner capacity).runOps ops).Transparent ∧ ((new inner capacity).runOps ops).Fresh) ∧
    ∀ actions : List (Action β), (Session.new inner capacity).measuresAll actions = true →
      ((Session.new inner capacity).run actions).Transparent ∧
        ((Session.new inner capacity).run actions).ra.Fresh := by
  refine ⟨fun ops hmeasures => ?_, fun actions hmeasures => ?_⟩
  · have hfresh := runOps_spec ops (new_fresh inner capacity) hmeasures
    exact ⟨fun first buf => (readBlocks_spec hfresh first buf).1, hfresh⟩
  · have hinv := @Session.run_inv _ _ _ (.new inner capacity) actions
      (new_fresh inner capacity) hmeasures
    exact ⟨hinv.transparent, hinv.fresh⟩

section Samples

def samplePairs : Shape := ⟨2, by decide, 8, 8⟩

def sampleBytes : Shape := ⟨1, by decide, 16, 16⟩

def sampleDisk : Disk Nat where
  contents := fun i => i
  shape := samplePairs
  script := [.done samplePairs, .done sampleBytes, .done samplePairs]

def sampleOps : List (Op Nat) := [.read 3 [0, 0], .flush, .write 6 [9]]

/-- The window of the block is kept, and the next read shows what it held. -/
theorem reads_stale_after_write_in_other_blocks :
    ¬ ∀ ops : List (Op Nat), ((new sampleDisk 4).runOps ops).Transparent := by
  intro h
  obtain ⟨d, hd, hanswers⟩ := h sampleOps 3 [0, 0]
  have hread : (((new sampleDisk 4).runOps sampleOps).readBlocks 3 [0, 0]).1 = .ok [6, 7] := by
    decide
  have hinner : d = ((new sampleDisk 4).runOps sampleOps).inner := by
    rcases hd with hd | ⟨buf, error, herror, hd⟩
    · exact hd
    · exact hd.trans (Disk.serve_of_refused (by decide) herror)
  rw [hread, hinner] at hanswers
  have hbytes : bytesOf ((new sampleDisk 4).runOps sampleOps).inner.contents 6 2 = [9, 7] := by
    decide
  have hstale := hanswers.2.trans hbytes
  revert hstale
  decide

def sampleActions : List (Action Nat) := [
  .begin (.read 3 [0, 0]), .poll, .begin (.write 3 [8, 9]), .poll, .begin (.read 3 [0, 0])]

theorem transparent_while_writes_measure_sample :
    ((new sampleDisk 4).measuresAll [.read 3 [0, 0], .write 3 [8, 9]] = true ∧
      ((new sampleDisk 4).runOps [.read 3 [0, 0], .write 3 [8, 9]]).Transparent) ∧
    (Session.new sampleDisk 4).measuresAll sampleActions = true ∧
      ((Session.new sampleDisk 4).run sampleActions).Transparent :=
  have hops : (new sampleDisk 4).measuresAll [.read 3 [0, 0], .write 3 [8, 9]] = true := by
    decide +kernel
  have hactions : (Session.new sampleDisk 4).measuresAll sampleActions = true := by decide
  ⟨⟨hops, ((transparent_while_writes_measure sampleDisk 4).1 _ hops).1⟩,
    hactions, ((transparent_while_writes_measure sampleDisk 4).2 _ hactions).1⟩

end Samples

end ReadAhead

end Hadris.Storage
