import Hadris.Storage.PollSpec
import Hadris.Storage.Device

namespace Hadris.Storage

open Prog (Triple)

variable {β : Type} [Inhabited β]

/-- A call of a cache. -/
inductive Request (β : Type) where
  | read (first count : Nat) (whole : Bool)
  | write (first : Nat) (data : List β) (whole : Bool)
  | flush
  | finish

def Request.failure : Request β → Event β
  | .write first data _ => .torn first data
  | _ => .failed

namespace Cache

/-- What a client does with a blocking cache. -/
inductive Op (β : Type) where
  | call (request : Request β)
  | getMut (inner : Device β)

def answer {α : Type} (request : Request β) (success : α → Cache β → Event β)
    (outcome : Except Error α × Cache β) : Event β × Cache β :=
  match outcome with
  | (.ok a, c) => (success a c, c)
  | (.error _, c) => (request.failure, c)

def serve (c : Cache β) (request : Request β) : Event β × Cache β :=
  match request with
  | .read first count whole =>
    answer request (fun buf _ => .read first count buf) ((readBlocks first count whole).run c)
  | .write first data whole =>
    answer request (fun _ _ => .written first data) ((writeBlocks first data whole).run c)
  | .flush => answer request (fun _ c => .flushed c.inner.contents) (flush.run c)
  | .finish => answer request (fun _ c => .flushed c.inner.contents) (flush.run c)

def closes : Request β → Event β → Bool
  | .finish, .flushed _ => true
  | _, _ => false

def runOps : Cache β → List (Op β) → List (Event β) × Cache β
  | c, [] => ([], c)
  | c, .getMut inner :: rest =>
    (.handed c.state.dirty c.inner.contents inner.contents :: (runOps (c.getMut inner) rest).1,
      (runOps (c.getMut inner) rest).2)
  | c, .call request :: rest =>
    if closes request (c.serve request).1 then ([(c.serve request).1], (c.serve request).2)
    else ((c.serve request).1 :: (runOps (c.serve request).2 rest).1,
      (runOps (c.serve request).2 rest).2)

end Cache

namespace Polled

variable [DecidableEq β]

/-- A call that was begun, and the path a write took at its last poll. -/
structure Job (β : Type) where
  request : Request β
  op : CacheOperation β
  buf : List β
  path : Option Bool

inductive Stage (β : Type) where
  | idle
  | busy (job : Job β)
  | closed

/-- A polled cache and the call that is under way. -/
structure Session (β : Type) where
  cache : Cache β
  stage : Stage β

/-- What a client does with a polled cache. -/
inductive Action (β : Type) where
  | begin (request : Request β)
  | poll
  | cancel (landed : Nat → Bool)
  | getMut (inner : Device β)

def Job.new (request : Request β) : Job β where
  request := request
  op := CacheOperation.new
  buf := match request with
    | .read _ count _ => List.replicate count default
    | _ => []
  path := none

def Request.path (c : Cache β) : Request β → Option Bool
  | .write first data whole => some (goesThrough first data whole c)
  | _ => none

def Request.poll : Request β → Run β Unit
  | .read first count whole => pollRead first count whole
  | .write first data whole => pollWrite first data whole
  | .flush => pollFlush
  | .finish => pollFlush

def Request.success (p : Polled β) : Request β → Event β
  | .read first count _ => .read first count p.buf
  | .write first data _ => .written first data
  | .flush => .flushed p.cache.inner.contents
  | .finish => .flushed p.cache.inner.contents

def Request.last : Request β → Stage β
  | .finish => .closed
  | _ => .idle

namespace Session

def new (inner : Device β) (capacity : UInt64) : Session β := ⟨Cache.new inner capacity, .idle⟩

def poll (c : Cache β) (job : Job β) : List (Event β) × Session β :=
  match (Request.poll job.request).run ⟨c, job.op, job.buf⟩ with
  | (.ok (), p) => ([Request.success p job.request], ⟨p.cache, Request.last job.request⟩)
  | (.error (.error _), p) => ([job.request.failure], ⟨p.cache, .idle⟩)
  | (.error .pending, p) =>
    ([], ⟨p.cache, .busy ⟨job.request, p.op, p.buf, Request.path c job.request⟩⟩)

def step (s : Session β) (action : Action β) : List (Event β) × Session β :=
  match s.stage, action with
  | .idle, .begin request => ([], ⟨s.cache, .busy (Job.new request)⟩)
  | .idle, .getMut inner =>
    ([.handed s.cache.state.dirty s.cache.inner.contents inner.contents],
      ⟨s.cache.getMut inner, .idle⟩)
  | .busy job, .poll => poll s.cache job
  | .busy job, .cancel landed =>
    ([job.request.failure], ⟨(cancel landed ⟨s.cache, job.op, job.buf⟩).cache, .idle⟩)
  | _, _ => ([], s)

def run : Session β → List (Action β) → List (Event β) × Session β
  | s, [] => ([], s)
  | s, action :: rest =>
    ((s.step action).1 ++ (run (s.step action).2 rest).1, (run (s.step action).2 rest).2)

def keepsPath (s : Session β) (action : Action β) : Bool :=
  match s.stage, action with
  | .busy job, .poll => job.path = none ∨ job.path = Request.path s.cache job.request
  | _, _ => true

def keepsPaths : Session β → List (Action β) → Bool
  | _, [] => true
  | s, action :: rest => s.keepsPath action && keepsPaths (s.step action).2 rest

/-- Where a call under way stands. -/
def JobAt (v : Nat → β) (c : Cache β) (job : Job β) : Prop :=
  match job.request with
  | .read first count _ => ReadAt v first count ⟨c, job.op, job.buf⟩
  | .write first data _ => ∀ path, (job.path = none ∨ job.path = some path) →
      WriteAt v first data path ⟨c, job.op, job.buf⟩
  | .flush => FlushAt v ⟨c, job.op, job.buf⟩
  | .finish => FlushAt v ⟨c, job.op, job.buf⟩

/-- A session whose client sees the blocks `v`. -/
def Inv (v : Nat → β) (s : Session β) : Prop :=
  match s.stage with
  | .busy job => JobAt v s.cache job
  | _ => Cache.Shows v s.cache

variable {v v' : Nat → β} {c : Cache β} {job : Job β} {s : Session β} {action : Action β}

theorem poll_inv
    (h : Triple (fun p => p = ⟨c, job.op, job.buf⟩) (Request.poll job.request)
      (fun _ p => ∃ v', Store.Step v (Request.success p job.request) v' ∧ Cache.Shows v' p.cache)
      (fun i p => (∃ v', Store.Step v job.request.failure v' ∧ Cache.Shows v' p.cache) ∧
        ∀ _ : i = .pending,
          JobAt v p.cache ⟨job.request, p.op, p.buf, Request.path c job.request⟩)) :
    ∃ v', Store.Run v (poll c job).1 v' ∧ Inv v' (poll c job).2 := by
  have hpoll := h _ rfl
  rw [poll]
  rcases hrun : (Request.poll job.request).run ⟨c, job.op, job.buf⟩ with ⟨_ | _, p⟩ <;>
    rw [hrun] at hpoll
  · rename_i i
    cases i with
    | pending => exact ⟨v, .nil v, hpoll.2 rfl⟩
    | error error =>
      obtain ⟨v', hstep, hshows⟩ := hpoll.1
      exact ⟨v', .single hstep, hshows⟩
  · obtain ⟨v', hstep, hshows⟩ := hpoll
    refine ⟨v', .single hstep, ?_⟩
    rw [Inv]
    cases job.request <;> exact hshows

theorem pollFlush_inv {op : CacheOperation β} {buf : List β} (h : FlushAt v ⟨c, op, buf⟩) :
    Triple (fun p => p = ⟨c, op, buf⟩) (pollFlush : Run β Unit)
      (fun _ p => ∃ v', Store.Step v (.flushed p.cache.inner.contents) v' ∧
        Cache.Shows v' p.cache)
      (fun i p => (∃ v', Store.Step v .failed v' ∧ Cache.Shows v' p.cache) ∧
        ∀ _ : i = .pending, FlushAt v p) := by
  refine ((pollFlush_spec v).pre ?_).weaken (fun _ p hp => ?_) fun i p hp => ?_
  · rintro p rfl
    exact h
  · refine ⟨v, ?_, hp.1⟩
    rw [hp.1.contents_eq hp.2]
    exact .flushed v
  · cases i with
    | error error => exact ⟨⟨v, .failed v, hp⟩, nofun⟩
    | pending => exact ⟨⟨v, .failed v, FlushAt.shows hp⟩, fun _ => hp⟩

theorem poll_spec (h : JobAt v c job)
    (hpath : job.path = none ∨ job.path = Request.path c job.request) :
    ∃ v', Store.Run v (poll c job).1 v' ∧ Inv v' (poll c job).2 := by
  obtain ⟨request, op, buf, path⟩ := job
  refine poll_inv ?_
  cases request with
  | read first count whole =>
    refine ((pollRead_spec v first count whole).pre ?_).weaken (fun _ p hp => ?_) fun i p hp => ?_
    · rintro p rfl
      exact h
    · refine ⟨v, ?_, hp.1⟩
      rw [Request.success, hp.2]
      exact .read v first count
    · cases i with
      | error error => exact ⟨⟨v, .failed v, hp⟩, nofun⟩
      | pending => exact ⟨⟨v, .failed v, ReadAt.shows hp⟩, fun _ => hp⟩
  | write first data whole =>
    refine ((pollWrite_spec v first data whole (goesThrough first data whole c)).pre ?_).weaken
      (fun _ p hp => ⟨_, .written v first data, hp⟩) fun i p hp => ⟨?_, fun hi => ?_⟩
    · rintro p rfl
      exact ⟨h _ hpath, rfl⟩
    · obtain ⟨v', hlands, hshows⟩ := hp.1
      exact ⟨v', .torn hlands, hshows⟩
    · intro path hpath
      have heq : goesThrough first data whole c = path :=
        Option.some.inj (hpath.resolve_left (Option.some_ne_none _))
      rw [← heq]
      exact hp.2 hi
  | flush => exact pollFlush_inv h
  | finish => exact pollFlush_inv h

omit [DecidableEq β] in
theorem new_job_at (hshows : Cache.Shows v c) (request : Request β) :
    JobAt v c (Job.new request) := by
  cases request with
  | read first count whole =>
    change ReadAt v first count _
    rw [ReadAt]
    split
    · exact ⟨hshows, .inl rfl⟩
    · exact .inl ⟨hshows, rfl, rfl, Nat.zero_le _, List.length_replicate ..,
        fun _ h => by cases h⟩
  | write first data whole =>
    intro path _
    rw [WriteAt]
    split
    · rw [ThroughAt, if_neg (by exact Nat.succ_ne_zero 3 ∘ Eq.symm)]
      exact ⟨hshows, .inl rfl⟩
    · refine ⟨Nat.zero_le _, .inl ⟨?_, .inl rfl, rfl⟩⟩
      change Cache.Shows (putBlocks v first (data.take 0)) c
      rw [List.take_zero, putBlocks_nil]
      exact hshows
  | flush => exact .next hshows rfl rfl
  | finish => exact .next hshows rfl rfl

omit [DecidableEq β] in
theorem cancel_inv (h : JobAt v c job) (landed : Nat → Bool) :
    ∃ v', Store.Step v job.request.failure v' ∧
      Cache.Shows v' (cancel landed ⟨c, job.op, job.buf⟩).cache := by
  obtain ⟨request, op, buf, path⟩ := job
  cases request with
  | read first count whole => exact ⟨v, .failed v, ReadAt.cancel landed h⟩
  | write first data whole =>
    have hat : ∃ path', path = none ∨ path = some path' := by
      cases path with
      | none => exact ⟨true, .inl rfl⟩
      | some path => exact ⟨path, .inr rfl⟩
    obtain ⟨path', hpath⟩ := hat
    obtain ⟨v', hlands, hshows⟩ := (h path' hpath).cancel landed
    exact ⟨v', .torn hlands, hshows⟩
  | flush => exact ⟨v, .failed v, FlushAt.cancel landed h⟩
  | finish => exact ⟨v, .failed v, FlushAt.cancel landed h⟩

/-- Every action keeps the session where its client thinks it stands, as long as
a write keeps its path. -/
theorem step_inv (h : Inv v s) (hpath : s.keepsPath action = true) :
    ∃ v', Store.Run v (s.step action).1 v' ∧ Inv v' (s.step action).2 := by
  obtain ⟨c, stage⟩ := s
  cases stage with
  | closed => exact ⟨v, .nil v, h⟩
  | idle =>
    cases action with
    | begin request => exact ⟨v, .nil v, new_job_at h request⟩
    | poll => exact ⟨v, .nil v, h⟩
    | cancel landed => exact ⟨v, .nil v, h⟩
    | getMut inner =>
      exact ⟨_, .single (.handed inner.contents fun i hi => h.device i hi),
        Cache.getMut_spec h inner⟩
  | busy job =>
    cases action with
    | begin request => exact ⟨v, .nil v, h⟩
    | poll => exact poll_spec h (of_decide_eq_true hpath)
    | cancel landed =>
      obtain ⟨v', hstep, hshows⟩ := cancel_inv h landed
      exact ⟨v', .single hstep, hshows⟩
    | getMut inner => exact ⟨v, .nil v, h⟩

theorem run_inv (actions : List (Action β)) (h : Inv v s) (hpath : s.keepsPaths actions = true) :
    ∃ v', Store.Run v (s.run actions).1 v' ∧ Inv v' (s.run actions).2 := by
  induction actions generalizing v s with
  | nil => exact ⟨v, .nil v, h⟩
  | cons action rest ih =>
    rw [keepsPaths, Bool.and_eq_true] at hpath
    obtain ⟨v', hstep, hinv⟩ := step_inv h hpath.1
    obtain ⟨v'', hrest, hinv'⟩ := ih hinv hpath.2
    exact ⟨v'', hstep.append hrest, hinv'⟩

omit [DecidableEq β] in
theorem Inv.wf (h : Inv v s) : s.cache.state.Wf := by
  obtain ⟨c, stage⟩ := s
  cases stage with
  | idle => exact Coherent.wf h
  | closed => exact Coherent.wf h
  | busy job =>
    -- A call that is stopped with nothing landed leaves the state as it is.
    obtain ⟨v', -, hshows⟩ := cancel_inv h fun _ => false
    have hstate : (cancel (fun _ => false) ⟨c, job.op, job.buf⟩).cache.state = c.state := by
      rw [cancel]
      split
      · split <;> rfl
      · rfl
    rw [← hstate]
    exact hshows.wf

end Session

end Polled

namespace Cache

variable {v : Nat → β} {c : Cache β}

theorem answer_spec {α : Type} {x : Run β α} {request : Request β}
    {success : α → Cache β → Event β}
    (h : Triple (Shows v) x (fun a c => ∃ v', Store.Step v (success a c) v' ∧ Shows v' c)
      fun _ c => ∃ v', Store.Step v request.failure v' ∧ Shows v' c) (hshows : Shows v c) :
    ∃ v', Store.Step v (answer request success (x.run c)).1 v' ∧
      Shows v' (answer request success (x.run c)).2 := by
  have hx := h c hshows
  rcases hrun : x.run c with ⟨_ | _, c'⟩ <;> rw [hrun] at hx <;> exact hx

theorem serve_spec (h : Shows v c) (request : Request β) :
    ∃ v', Store.Step v (c.serve request).1 v' ∧ Shows v' (c.serve request).2 := by
  have hflush : Triple (Shows v) flush
      (fun _ c => ∃ v', Store.Step v (.flushed c.inner.contents) v' ∧ Shows v' c)
      (fun _ c => ∃ v', Store.Step v .failed v' ∧ Shows v' c) := by
    refine (flush_spec v).weaken (fun _ c hc => ⟨v, ?_, hc.1⟩) fun _ c hc => ⟨v, .failed v, hc⟩
    rw [hc.1.contents_eq hc.2]
    exact .flushed v
  cases request with
  | read first count whole =>
    refine answer_spec ((readBlocks_spec v first count whole).weaken (fun buf c hc => ?_)
      fun _ c hc => ⟨v, .failed v, hc⟩) h
    refine ⟨v, ?_, hc.1⟩
    rw [hc.2]
    exact .read v first count
  | write first data whole =>
    refine answer_spec ((writeBlocks_spec v first data whole).weaken
      (fun _ c hc => ⟨_, .written v first data, hc⟩) fun _ c hc => ?_) h
    obtain ⟨v', hlands, hshows⟩ := hc
    exact ⟨v', .torn hlands, hshows⟩
  | flush => exact answer_spec hflush h
  | finish => exact answer_spec hflush h

theorem runOps_spec (ops : List (Op β)) (h : Shows v c) :
    ∃ v', Store.Run v (runOps c ops).1 v' ∧ Shows v' (runOps c ops).2 := by
  induction ops generalizing v c with
  | nil => exact ⟨v, .nil v, h⟩
  | cons op rest ih =>
    cases op with
    | getMut inner =>
      obtain ⟨v', hrun, hshows⟩ := ih (getMut_spec h inner)
      exact ⟨v', .cons (.handed inner.contents fun i hi => h.device i hi) hrun, hshows⟩
    | call request =>
      obtain ⟨v', hstep, hshows⟩ := serve_spec h request
      rw [runOps]
      split
      · exact ⟨v', .single hstep, hshows⟩
      · obtain ⟨v'', hrun, hshows'⟩ := ih hshows
        exact ⟨v'', .cons hstep hrun, hshows'⟩

end Cache

/-- A cache whose client saw `events` served it as a store of blocks would, and
its list of recency, its map and its dirty set describe the same slots. -/
def Serves (start : Nat → β) (events : List (Event β)) (c : Cache β) : Prop :=
  (∃ v, Store.Run start events v) ∧ c.state.Wf

/-- The blocking cache serves every run as a store of blocks, and the polled one
every run in which the polls of a write take one path. -/
theorem block_cache_coherent_while_writes_keep_their_path [DecidableEq β] (inner : Device β)
    (capacity : UInt64) :
    (∀ ops : List (Cache.Op β), Serves inner.contents
      ((Cache.new inner capacity).runOps ops).1 ((Cache.new inner capacity).runOps ops).2) ∧
    ∀ actions : List (Polled.Action β),
      (Polled.Session.new inner capacity).keepsPaths actions = true →
        Serves inner.contents ((Polled.Session.new inner capacity).run actions).1
          ((Polled.Session.new inner capacity).run actions).2.cache := by
  have hcapacity : capacity.toNat ≤ nilSlot := Nat.le_of_lt_succ capacity.toNat_lt
  have hnew : Cache.Shows inner.contents (Cache.new inner capacity) := Coherent.new hcapacity
  refine ⟨fun ops => ?_, fun actions hpath => ?_⟩
  · obtain ⟨v, hrun, hshows⟩ := Cache.runOps_spec ops hnew
    exact ⟨⟨v, hrun⟩, hshows.wf⟩
  · obtain ⟨v, hrun, hinv⟩ := Polled.Session.run_inv (s := Polled.Session.new inner capacity)
      actions hnew hpath
    exact ⟨⟨v, hrun⟩, hinv.wf⟩

section Samples

def sampleDevice (count : UInt64) (script : List Reply) : Device Nat where
  contents := fun index => if index = 5 then 55 else 0
  count := count
  maxCount := 64
  script := script

/-- Three blocks are cached and dirty when the device is handed out and loses its
last block. A write that covers that block writes it back, which makes the
device whole again, and is then pending. -/
def sampleActions : List (Polled.Action Nat) := [
  .begin (.write 5 [55] true), .poll, .begin (.write 9 [19] true), .poll,
  .begin (.write 0 [10] true), .poll, .begin (.write 1 [11] true), .poll,
  .getMut (sampleDevice 9 [.done 10, .pending (fun index => index = 8) 10]),
  .begin (.write 8 [28, 29] true), .poll]

/-- The write is polled again and takes the other path, and an earlier write is
lost. -/
theorem block_cache_loses_a_write_that_changes_its_path :
    ¬ ∀ actions : List (Polled.Action Nat), Serves (sampleDevice 10 []).contents
      ((Polled.Session.new (sampleDevice 10 []) 3).run actions).1
      ((Polled.Session.new (sampleDevice 10 []) 3).run actions).2.cache := by
  intro h
  obtain ⟨⟨v, hrun⟩, -⟩ := h (sampleActions ++ [.poll, .begin (.read 0 1 true), .poll])
  have hshown := hrun.shown 0 none nofun
  revert hshown
  decide

theorem block_cache_coherent_while_writes_keep_their_path_sample :
    (Polled.Session.new (sampleDevice 10 []) 3).keepsPaths sampleActions = true ∧
      Serves (sampleDevice 10 []).contents
        ((Polled.Session.new (sampleDevice 10 []) 3).run sampleActions).1
        ((Polled.Session.new (sampleDevice 10 []) 3).run sampleActions).2.cache :=
  have hpaths : (Polled.Session.new (sampleDevice 10 []) 3).keepsPaths sampleActions = true := by
    decide
  ⟨hpaths, (block_cache_coherent_while_writes_keep_their_path (sampleDevice 10 []) 3).2 _ hpaths⟩

end Samples

end Hadris.Storage
