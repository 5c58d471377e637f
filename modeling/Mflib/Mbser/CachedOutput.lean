import Mflib.Lib.Lts
import Mflib.Mbser.OutputRing

/-! Output before and after a channel comes up: `mf_ATSend` and `mf_LogSend`.

A send goes to the serial port while its flag is up (`can_send`, `can_print`) and
else into the ring. The notifier of the port flushes the ring when the port starts
up and then puts the flag up. The ring has a lock and the flag has none, so bytes
may be cached after the notifier has seen the ring empty. The AT channel looks at
the flag again after caching; the log channel does not.

`output_in_order` says when nothing is left behind: whenever the notifier puts the
flag up, the ring is empty or the sender has yet to look at the flag again. -/
namespace Mflib.Mbser
open Serial

inductive Channel where
  | atcmd
  | log
deriving DecidableEq

/-- `cache_atsend_buffer` and `cache_log_buf`. -/
def Channel.cacheBuffer : Channel → Ring → List Byte → Ring
  | .atcmd => cacheAtsendBuffer
  | .log => cacheLogBuf

/-- `cache_atsend_buffer` ends with a look at the flag. -/
def Channel.looksAgain : Channel → Bool
  | .atcmd => true
  | .log => false

/-- Where the application thread stands in a send of `data`. -/
inductive SenderPc where
  | outside
  /-- About to test the flag. -/
  | test (data : List Byte)
  /-- About to call `mf_mbserial_send`. -/
  | direct (data : List Byte)
  | cache (data : List Byte)
  /-- About to test the flag again. -/
  | again
  /-- In the loop of `flush_buffered_at`. -/
  | flush
deriving DecidableEq

/-- Where the serial dispatch thread stands in the notifier. -/
inductive NotifierPc where
  | idle
  /-- In the flush loop. -/
  | flush
  /-- About to put the flag up. -/
  | setFlag
deriving DecidableEq

structure Output where
  ring : Ring
  /-- `can_send` or `can_print`. -/
  flag : Bool
  sender : SenderPc
  notifier : NotifierPc
  /-- What `mf_mbserial_send` was given, in order. -/
  handed : List Byte
  /-- The data of the calls, in order. -/
  asked : List Byte

inductive OutputAction where
  /-- The application calls `mf_ATSend` or `mf_LogSend`. -/
  | send (data : List Byte)
  | test
  | direct
  | cache
  | again
  /-- A turn of the sender's flush loop. -/
  | flushSender
  | startup
  /-- A turn of the notifier's flush loop. -/
  | flushNotifier
  | setFlag
  | shutdown

/-- One step of the application or of the serial dispatch thread. -/
def outputStep (c : Channel) (s : Output) : OutputAction → Option Output
  | .send data => match s.sender with
    | .outside => some {s with sender := .test data, asked := s.asked ++ data}
    | _ => none
  | .test => match s.sender with
    | .test data => some {s with sender := if s.flag = true then .direct data else .cache data}
    | _ => none
  | .direct => match s.sender with
    | .direct data => some {s with sender := .outside, handed := s.handed ++ data}
    | _ => none
  | .cache => match s.sender with
    | .cache data => some {s with
        ring := c.cacheBuffer s.ring data
        sender := if c.looksAgain then .again else .outside}
    | _ => none
  | .again => match s.sender with
    | .again => some {s with sender := if s.flag = true then .flush else .outside}
    | _ => none
  | .flushSender => match s.sender with
    | .flush => match flushOnce s.ring with
      | some (ring, sent) => some {s with ring := ring, handed := s.handed ++ sent}
      | none => some {s with sender := .outside}
    | _ => none
  | .startup => match s.notifier with
    | .idle => some {s with notifier := .flush}
    | _ => none
  | .flushNotifier => match s.notifier with
    | .flush => match flushOnce s.ring with
      | some (ring, sent) => some {s with ring := ring, handed := s.handed ++ sent}
      | none => some {s with notifier := .setFlag}
    | _ => none
  | .setFlag => match s.notifier with
    | .setFlag => some {s with flag := true, notifier := .idle}
    | _ => none
  | .shutdown => match s.notifier with
    | .idle => some {s with flag := false}
    | _ => none

/-- A channel after its initialization; the buffer is what the memory held. -/
def cachedOutput (c : Channel) (buf : Nat → Byte) : Lts Output OutputAction where
  start :=
    { ring := ⟨buf, 0, 0⟩
      flag := false
      sender := .outside
      notifier := .idle
      handed := []
      asked := [] }
  step := outputStep c

/-! ### What a step can do -/

/-- The steps, each with its guard and its result. -/
inductive OutputStep (c : Channel) (s : Output) : OutputAction → Output → Prop where
  | send {data} : s.sender = .outside →
      OutputStep c s (.send data) {s with sender := .test data, asked := s.asked ++ data}
  | up {data} : s.sender = .test data → s.flag = true →
      OutputStep c s .test {s with sender := .direct data}
  | down {data} : s.sender = .test data → s.flag = false →
      OutputStep c s .test {s with sender := .cache data}
  | direct {data} : s.sender = .direct data →
      OutputStep c s .direct {s with sender := .outside, handed := s.handed ++ data}
  | cache {data} : s.sender = .cache data →
      OutputStep c s .cache {s with
        ring := c.cacheBuffer s.ring data
        sender := if c.looksAgain then .again else .outside}
  | late : s.sender = .again → s.flag = true → OutputStep c s .again {s with sender := .flush}
  | still : s.sender = .again → s.flag = false → OutputStep c s .again {s with sender := .outside}
  | flushSender : s.sender = .flush → s.ring.contents ≠ [] →
      OutputStep c s .flushSender
        {s with ring := {s.ring with start := s.ring.stop}, handed := s.handed ++ s.ring.flushed}
  | doneSender : s.sender = .flush → s.ring.contents = [] →
      OutputStep c s .flushSender {s with sender := .outside}
  | startup : s.notifier = .idle → OutputStep c s .startup {s with notifier := .flush}
  | flushNotifier : s.notifier = .flush → s.ring.contents ≠ [] →
      OutputStep c s .flushNotifier
        {s with ring := {s.ring with start := s.ring.stop}, handed := s.handed ++ s.ring.flushed}
  | doneNotifier : s.notifier = .flush → s.ring.contents = [] →
      OutputStep c s .flushNotifier {s with notifier := .setFlag}
  | setFlag : s.notifier = .setFlag →
      OutputStep c s .setFlag {s with flag := true, notifier := .idle}
  | shutdown : s.notifier = .idle → OutputStep c s .shutdown {s with flag := false}

variable {c : Channel} {s u : Output}

theorem outputStep_cases {a : OutputAction} (h : outputStep c s a = some u) :
    OutputStep c s a u := by
  cases a with
  | send data | direct | cache | startup | setFlag | shutdown =>
    simp only [outputStep] at h
    split at h
    · cases h
      constructor
      assumption
    · cases h
  | test =>
    simp only [outputStep] at h
    split at h
    · split at h
      · cases h
        exact .up ‹_› ‹_›
      · cases h
        exact .down ‹_› (Bool.eq_false_of_not_eq_true ‹_›)
    · cases h
  | again =>
    simp only [outputStep] at h
    split at h
    · split at h
      · cases h
        exact .late ‹_› ‹_›
      · cases h
        exact .still ‹_› (Bool.eq_false_of_not_eq_true ‹_›)
    · cases h
  | flushSender =>
    simp only [outputStep, flushOnce_eq] at h
    split at h
    · by_cases hempty : s.ring.contents = []
      · simp only [hempty, if_true] at h
        cases h
        exact .doneSender ‹_› hempty
      · simp only [hempty, if_false] at h
        cases h
        exact .flushSender ‹_› hempty
    · cases h
  | flushNotifier =>
    simp only [outputStep, flushOnce_eq] at h
    split at h
    · by_cases hempty : s.ring.contents = []
      · simp only [hempty, if_true] at h
        cases h
        exact .doneNotifier ‹_› hempty
      · simp only [hempty, if_false] at h
        cases h
        exact .flushNotifier ‹_› hempty
    · cases h

/-! ### In order, and nothing left behind -/

/-- At most 4096 bytes are cached between flushes. -/
def CacheFits (s : Output) : OutputAction → Prop
  | .cache => match s.sender with
    | .cache data => s.ring.count + data.length ≤ bufLen
    | _ => True
  | _ => True

instance (s : Output) (a : OutputAction) : Decidable (CacheFits s a) := by
  unfold CacheFits
  repeat (first | infer_instance | split)

/-- The call in progress will find the flag up and flush what it caches. -/
def Channel.WillFlush : Channel → SenderPc → Prop
  | .atcmd, .cache _ => True
  | .atcmd, .again => True
  | .atcmd, .flush => True
  | _, _ => False

instance (c : Channel) (pc : SenderPc) : Decidable (c.WillFlush pc) := by
  unfold Channel.WillFlush
  split <;> infer_instance

/-- The flag goes up with the ring empty, or with a call that will empty it; a channel
that does not look again caches only with the flag down; and no flush compares its
indices across the wrap. -/
def InTime (c : Channel) (s : Output) : OutputAction → Prop
  | .setFlag => s.ring.contents = [] ∨ c.WillFlush s.sender
  | .cache => c.looksAgain = true ∨ s.flag = false
  | .flushSender => ¬ s.ring.WrapsEarly
  | .flushNotifier => ¬ s.ring.WrapsEarly
  | _ => True

instance (c : Channel) (s : Output) (a : OutputAction) : Decidable (InTime c s a) := by
  unfold InTime
  split <;> infer_instance

/-- What the call in progress has neither sent nor cached. -/
def SenderPc.inHand : SenderPc → List Byte
  | .test data => data
  | .direct data => data
  | .cache data => data
  | _ => []

structure OutputInv (c : Channel) (s : Output) : Prop where
  bounded : s.ring.count ≤ bufLen
  conserved : s.handed ++ s.ring.contents ++ s.sender.inHand = s.asked
  settled : s.flag = true → s.ring.contents = [] ∨ c.WillFlush s.sender
  direct : ∀ data, s.sender = .direct data → s.ring.contents = []

theorem cacheBuffer_appends {r : Ring} {data : List Byte} (h : r.count + data.length ≤ bufLen) :
    Appended r (c.cacheBuffer r data) data := by
  cases c with
  | atcmd => exact cacheAtsendBuffer_appends h
  | log => exact cacheLogBuf_appends h

/-- A flush hands over the ring. -/
theorem OutputInv.flush {handed : List Byte} (hi : OutputInv c s) (hne : s.ring.contents ≠ [])
    (hwrap : ¬ s.ring.WrapsEarly) (hh : handed = s.handed ++ s.ring.flushed) :
    OutputInv c {s with ring := {s.ring with start := s.ring.stop}, handed := handed} := by
  have hstart : s.ring.start ≠ s.ring.stop := fun he => hne (Ring.contents_eq_nil.mpr he)
  have hflushed := (Ring.flushed_iff hstart hi.bounded).mpr hwrap
  refine ⟨by simp, ?_, fun _ => .inl (by simp), fun _ _ => by simp⟩
  rw [Ring.contents_flush, List.append_nil, hh, hflushed]
  exact hi.conserved

theorem outputStep_inv {a : OutputAction} (hi : OutputInv c s)
    (ha : CacheFits s a ∧ InTime c s a) (h : outputStep c s a = some u) : OutputInv c u := by
  have hcons := hi.conserved
  cases outputStep_cases h with
  | @send data hpc =>
    rw [hpc] at hcons
    refine ⟨hi.bounded, ?_, fun hf => ?_, by simp⟩
    · show s.handed ++ s.ring.contents ++ data = s.asked ++ data
      rw [← hcons]
      simp [SenderPc.inHand]
    · refine .inl ((hi.settled hf).resolve_right ?_)
      rw [hpc]
      cases c <;> exact id
  | @up data hpc hf =>
    rw [hpc] at hcons
    have hempty : s.ring.contents = [] := by
      refine (hi.settled hf).resolve_right ?_
      rw [hpc]
      cases c <;> exact id
    exact ⟨hi.bounded, hcons, fun _ => .inl hempty, fun _ _ => hempty⟩
  | @down data hpc hf =>
    rw [hpc] at hcons
    exact ⟨hi.bounded, hcons, fun hup => absurd (hf.symm.trans hup) (by decide), by simp⟩
  | @direct data hpc =>
    have hempty := hi.direct data hpc
    rw [hpc, hempty, List.append_nil] at hcons
    refine ⟨hi.bounded, ?_, fun _ => .inl hempty, by simp⟩
    show s.handed ++ data ++ s.ring.contents ++ [] = s.asked
    rw [hempty, List.append_nil, List.append_nil]
    exact hcons
  | @cache data hpc =>
    have hfits : s.ring.count + data.length ≤ bufLen := by simpa [CacheFits, hpc] using ha.1
    have happ := cacheBuffer_appends (c := c) hfits
    rw [hpc] at hcons
    refine ⟨?_, ?_, fun hf => ?_, fun d hd => ?_⟩
    · show (c.cacheBuffer s.ring data).count ≤ bufLen
      rw [happ.count]
      exact hfits
    · have hnone : (if c.looksAgain then SenderPc.again else .outside).inHand = [] := by
        split <;> rfl
      show s.handed ++ (c.cacheBuffer s.ring data).contents ++ _ = s.asked
      rw [hnone, List.append_nil, happ.contents, ← List.append_assoc]
      exact hcons
    · cases c with
      | atcmd => exact .inr trivial
      | log =>
        have hdown : s.flag = false := ha.2.resolve_left (by decide)
        exact absurd (hdown.symm.trans hf) (by decide)
    · cases c <;> cases hd
  | late hpc hf =>
    rw [hpc] at hcons
    refine ⟨hi.bounded, hcons, fun hup => ?_, by simp⟩
    cases hi.settled hf with
    | inl hempty => exact .inl hempty
    | inr hwill =>
      rw [hpc] at hwill
      cases c with
      | atcmd => exact .inr trivial
      | log => cases hwill
  | still hpc hf =>
    rw [hpc] at hcons
    exact ⟨hi.bounded, hcons, fun hup => absurd (hf.symm.trans hup) (by decide), by simp⟩
  | flushSender hpc hne => exact hi.flush hne ha.2 rfl
  | doneSender hpc hempty =>
    rw [hpc] at hcons
    exact ⟨hi.bounded, hcons, fun _ => .inl hempty, by simp⟩
  | startup | doneNotifier => exact ⟨hi.bounded, hcons, hi.settled, hi.direct⟩
  | flushNotifier hpc hne => exact hi.flush hne ha.2 rfl
  | setFlag hpc => exact ⟨hi.bounded, hcons, fun _ => ha.2, hi.direct⟩
  | shutdown hpc => exact ⟨hi.bounded, hcons, by simp, hi.direct⟩

/-- The calls' bytes are handed over in order, each once: what was handed over, what is
cached and what the call in progress holds are what was asked for. -/
def InOrder (s : Output) : Prop := s.handed ++ s.ring.contents ++ s.sender.inHand = s.asked

/-- With the flag up and no call or notification in progress, the ring is empty. -/
def NothingLeft (s : Output) : Prop :=
  s.flag = true → s.sender = .outside → s.notifier = .idle → s.ring.contents = []

instance (s : Output) : Decidable (NothingLeft s) :=
  inferInstanceAs (Decidable (_ → _))

/-- **Cached output is neither overtaken nor left behind**, on either channel, in every
run in which the flag goes up in time. -/
theorem output_in_order (c : Channel) (buf : Nat → Byte) {s : Output}
    (h : (cachedOutput c buf).ReachableUnder (fun s a => CacheFits s a ∧ InTime c s a) s) :
    InOrder s ∧ NothingLeft s := by
  have hi : OutputInv c s := by
    have hempty : (⟨buf, 0, 0⟩ : Ring).contents = [] := Ring.contents_eq_nil.mpr rfl
    have hcount : (⟨buf, 0, 0⟩ : Ring).count = 0 := Ring.count_eq_zero.mpr rfl
    refine h.invariant ⟨?_, ?_, by simp [cachedOutput], by simp [cachedOutput]⟩ outputStep_inv
    · show (⟨buf, 0, 0⟩ : Ring).count ≤ bufLen
      rw [hcount]
      exact Nat.zero_le _
    · show [] ++ (⟨buf, 0, 0⟩ : Ring).contents ++ [] = []
      rw [hempty]
      rfl
  refine ⟨hi.conserved, fun hf hout _ => (hi.settled hf).resolve_right ?_⟩
  rw [hout]
  cases c <;> exact id

/-- Two sends around a startup: the first is cached and flushed, the second direct. -/
def aroundStartup : List OutputAction :=
  [.send [65, 66], .test, .cache, .again, .startup, .flushNotifier, .flushNotifier, .setFlag,
   .send [67], .test, .direct]

theorem output_in_order_startup :
    ∃ s : Output, s.handed = [65, 66, 67] ∧ InOrder s ∧ NothingLeft s := by
  obtain ⟨s, hs, hh⟩ := Lts.exists_reachableUnder (L := cachedOutput .atcmd fun _ => 0)
    (P := fun s => s.handed = [65, 66, 67]) (fun s a => CacheFits s a ∧ InTime .atcmd s a)
    aroundStartup (by decide)
  exact ⟨s, hh, output_in_order .atcmd (fun _ => 0) hs⟩

/-- The notifier has seen the ring empty when the bytes are cached. -/
def cachedTooLate (c : Channel) : List OutputAction :=
  [.send [65], .test, .startup, .flushNotifier, .cache] ++
    (if c.looksAgain then [.again] else []) ++ [.setFlag]

theorem output_left_behind :
    (¬ ∀ s, (cachedOutput .atcmd fun _ => 0).ReachableUnder CacheFits s → InOrder s ∧ NothingLeft s) ∧
      ¬ ∀ s, (cachedOutput .log fun _ => 0).ReachableUnder CacheFits s →
        InOrder s ∧ NothingLeft s := by
  have hleft : ∀ c, (((cachedOutput c fun _ => 0).restrict CacheFits).exec
      (cachedOutput c fun _ => 0).start (cachedTooLate c)).any
        (fun s => decide (¬ NothingLeft s)) = true := by
    intro c
    cases c <;> decide
  constructor
  · intro h
    obtain ⟨s, hs, hno⟩ := Lts.exists_reachableUnder (L := cachedOutput .atcmd fun _ => 0)
      CacheFits (cachedTooLate .atcmd) (hleft .atcmd)
    exact hno (h s hs).2
  · intro h
    obtain ⟨s, hs, hno⟩ := Lts.exists_reachableUnder (L := cachedOutput .log fun _ => 0)
      CacheFits (cachedTooLate .log) (hleft .log)
    exact hno (h s hs).2

end Mflib.Mbser
