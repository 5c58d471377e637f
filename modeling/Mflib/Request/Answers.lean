import Mflib.Lib.Located
import Mflib.Micproto.Transport
import Mflib.Request.Life

/-! Every request is answered exactly once.

`RequestInv` says where each block is and that its history so far is the life of a
request up to what is to happen to it there. It is carried through every step of
`input_thread`, of the threads behind the FIFOs and of the output path. -/
namespace Mflib.Request
open Circular Micproto

section
variable {β : Type}

/-- Where a block is. -/
inductive Place where
  | remote
  | input
  | queue (f : Fifo)
  | fifo (f : Fifo)
  /-- In `mreqb_submit`, about to be linked. -/
  | link (t : Server)
  | output
deriving DecidableEq

/-- The block `input_thread` has. A function that returns `MREQB_RET_PENDING` has
passed it on. -/
def InputPc.hand : InputPc β → Option β
  | .request m => some m
  | .call m _ => some m
  | .returned m ret => if ret = mreqbRetPending then none else some m
  | .giveback m _ => some m
  | _ => none

theorem returned_pending (m : β) : (InputPc.returned m mreqbRetPending).hand = none := by
  simp [InputPc.hand]

theorem returned_status {ret : Word} (m : β) (h : ret ≠ mreqbRetPending) :
    (InputPc.returned m ret).hand = some m := by
  simp [InputPc.hand, h]

def FifoPc.hand : FifoPc β → Option β
  | .handle m => some m
  | .giveback m _ => some m
  | _ => none

def RequestState.at (s : RequestState β) (q : Fifo → List β) (batch pend : List β) :
    Place → β → Prop
  | .remote, _ => False
  | .input, m => s.input.hand = some m
  | .queue f, m => m ∈ q f
  | .fifo f, m => (s.fifo f).hand = some m
  | .link t, m => s.out.submitter t = .insert m
  | .output, m => m ∈ batch ++ pend

/-- A request for the serial ports is for a line from 0. -/
def LineOk (info : CmdInfo) (v : Mreqb) : Prop :=
  info.handler v.cmd = some .doMbserialRequest → 0 ≤ (mreqbGetArg v 0).toInt

instance (info : CmdInfo) (v : Mreqb) : Decidable (LineOk info v) :=
  inferInstanceAs (Decidable (_ → _))

/-- A request on its way to the thread behind a FIFO. -/
def Waits (info : CmdInfo) (v : Mreqb) (f : Fifo) (p : Life) : Prop :=
  p = .received v.cmd ∧ LineOk info v ∧
    ∃ func, info.handler v.cmd = some func ∧ func.fifo = some f

/-- An answer on its way out. -/
def Answered (v : Mreqb) (p : Life) : Prop :=
  p = .gaveBack v.result ∧ mreqbIsResponse v = true

/-- How far the life of a block is, by where it is. -/
def RequestState.Stands (info : CmdInfo) (s : RequestState β) (m : β) : Place → Life → Prop
  | .remote, p => p = .away
  | .input, p => match s.input with
    | .request _ => p = .received (s.out.mem m).cmd ∧ LineOk info (s.out.mem m)
    | .call _ func => p = .received (s.out.mem m).cmd ∧ LineOk info (s.out.mem m) ∧
        info.handler (s.out.mem m).cmd = some func
    | .returned _ ret => p = .handled ret
    | .giveback _ status => p = .handled status
    | _ => False
  | .queue f, p => Waits info (s.out.mem m) f p
  | .fifo f, p => match s.fifo f with
    | .handle _ => Waits info (s.out.mem m) f p
    | .giveback _ status => p = .handled status
    | _ => False
  | .link _, p => Answered (s.out.mem m) p
  | .output, p => Answered (s.out.mem m) p

variable [DecidableEq β]

/-- The remote sends a block only when that has left as often as it was received, and
for the serial ports a line from 0; a function that puts its block nowhere returns a
status. -/
def RequestOk (info : CmdInfo) (s : RequestState β) : RequestAction β → Prop
  | .receive m v _ => receivedCount m s.log = leftCount m s.log ∧ LineOk info v
  | .other _ status => status ≠ mreqbRetPending
  | _ => True

instance (info : CmdInfo) (s : RequestState β) (a : RequestAction β) :
    Decidable (RequestOk info s a) := by
  unfold RequestOk
  split <;> infer_instance

structure RequestInv (info : CmdInfo) (s : RequestState β) (place : β → Place)
    (q : Fifo → List β) (batch pend : List β) : Prop where
  out : OutputInv s.out batch pend
  ring : ∀ f, IsRing s.out.links f.head (nodes (q f))
  located : Located .remote (s.at q batch pend) place
  life : ∀ m, ∃ p, (requestLife info m).exec .away s.log = some p ∧ s.Stands info m (place m) p

variable {info : CmdInfo} {s u : RequestState β} {place place' : β → Place}
  {q q' : Fifo → List β} {batch pend batch' pend' : List β} {log : List (RequestEvent β)}
  {m : β} {p : Life}

/-! ### What the invariant gives -/

omit [DecidableEq β] in
theorem Stands.remote {i : Place} (h : s.Stands info m i .away) : i = .remote := by
  cases i with
  | remote => rfl
  | input =>
    simp only [RequestState.Stands] at h
    split at h <;> simp at h
  | queue f => cases h.1
  | fifo f =>
    simp only [RequestState.Stands] at h
    split at h
    · cases h.1
    · cases h
    · cases h
  | link t => cases h.1
  | output => cases h.1

omit [DecidableEq β] in
/-- A block stands as it did while it stays where it is. -/
theorem Stands.unmoved {i : Place} (h : s.Stands info m i p) (hmem : u.out.mem m = s.out.mem m)
    (hinput : i = .input → u.input = s.input) (hfifo : ∀ f, i = .fifo f → u.fifo f = s.fifo f) :
    u.Stands info m i p := by
  cases i with
  | remote => exact h
  | input =>
    simp only [RequestState.Stands, hinput rfl, hmem]
    exact h
  | queue f | link t | output =>
    simp only [RequestState.Stands, hmem]
    exact h
  | fifo f =>
    simp only [RequestState.Stands, hfifo f rfl, hmem]
    exact h

/-- A block that has left as often as it was received is with the remote. -/
theorem RequestInv.remote (hi : RequestInv info s place q batch pend)
    (h : receivedCount m s.log = leftCount m s.log) : place m = .remote := by
  obtain ⟨p, hp, hstands⟩ := hi.life m
  have hcount := (requestLife_count hp).2
  have hhere : p.here = 0 := by
    simp only [Life.here] at hcount ⊢
    omega
  have haway : p = .away := by
    cases p with
    | away => rfl
    | received | handled | gaveBack => cases hhere
  rw [haway] at hstands
  exact Stands.remote hstands

theorem RequestInv.input (hi : RequestInv info s place q batch pend) (hm : s.input.hand = some m) :
    place m = .input :=
  (hi.located.iff (i := .input) (by simp) m).mp hm

theorem RequestInv.input_only (hi : RequestInv info s place q batch pend) {k : β}
    (hk : place k = .input) : s.input.hand = some k :=
  (hi.located.iff (i := .input) (by simp) k).mpr hk

theorem RequestInv.fifo (hi : RequestInv info s place q batch pend) {f : Fifo}
    (hm : (s.fifo f).hand = some m) : place m = .fifo f :=
  (hi.located.iff (i := .fifo f) (by simp) m).mp hm

theorem RequestInv.fifo_only (hi : RequestInv info s place q batch pend) {f : Fifo} {k : β}
    (hk : place k = .fifo f) : (s.fifo f).hand = some k :=
  (hi.located.iff (i := .fifo f) (by simp) k).mpr hk

theorem RequestInv.queue_iff (hi : RequestInv info s place q batch pend) {f : Fifo} :
    m ∈ q f ↔ place m = .queue f :=
  hi.located.iff (i := .queue f) (by simp) m

theorem RequestInv.output_iff (hi : RequestInv info s place q batch pend) :
    m ∈ batch ++ pend ↔ place m = .output :=
  hi.located.iff (i := .output) (by simp) m

theorem RequestInv.link (hi : RequestInv info s place q batch pend) {t : Server}
    (hm : s.out.submitter t = .insert m) : place m = .link t :=
  (hi.located.iff (i := .link t) (by simp) m).mp hm

/-! ### One block at a time -/

/-- A step about one block. -/
theorem RequestInv.move (hi : RequestInv info s place q batch pend)
    (log : List (RequestEvent β)) (hout : OutputInv u.out batch' pend')
    (hring : ∀ f, IsRing u.out.links f.head (nodes (q' f)))
    (hlocated : Located .remote (u.at q' batch' pend') place')
    (hplace : ∀ k, k ≠ m → place' k = place k) (hlog : u.log = s.log ++ log)
    (hblock : ∀ e ∈ log, e.block = m) (hmem : ∀ k, k ≠ m → u.out.mem k = s.out.mem k)
    (hinput : ∀ k, k ≠ m → place k = .input → u.input = s.input)
    (hfifo : ∀ k, k ≠ m → ∀ f, place k = .fifo f → u.fifo f = s.fifo f)
    (hm : ∀ p, s.Stands info m (place m) p →
      ∃ p', (requestLife info m).exec p log = some p' ∧ u.Stands info m (place' m) p') :
    RequestInv info u place' q' batch' pend' where
  out := hout
  ring := hring
  located := hlocated
  life := fun k => by
    obtain ⟨p, hp, hstands⟩ := hi.life k
    rw [hlog]
    by_cases hk : k = m
    · subst hk
      obtain ⟨p', hp', hstands'⟩ := hm p hstands
      exact ⟨p', (Lts.exec_append hp log).trans hp', hstands'⟩
    · refine ⟨p, (Lts.exec_append hp log).trans ?_, ?_⟩
      · exact requestLife_others fun e he hem => hk (hem.symm.trans (hblock e he))
      · rw [hplace k hk]
        exact Stands.unmoved hstands (hmem k hk) (hinput k hk) (hfifo k hk)

/-- A step about no block. -/
theorem RequestInv.idle (hi : RequestInv info s place q batch pend)
    (hout : OutputInv u.out batch' pend') (hring : ∀ f, IsRing u.out.links f.head (nodes (q f)))
    (hlocated : Located .remote (u.at q batch' pend') place) (hlog : u.log = s.log)
    (hmem : u.out.mem = s.out.mem) (hinput : ∀ k, place k = .input → u.input = s.input)
    (hfifo : ∀ k f, place k = .fifo f → u.fifo f = s.fifo f) :
    RequestInv info u place q batch' pend' where
  out := hout
  ring := hring
  located := hlocated
  life := fun k => by
    obtain ⟨p, hp, hstands⟩ := hi.life k
    rw [hlog]
    exact ⟨p, hp, Stands.unmoved hstands (congrFun hmem k) (hinput k) (hfifo k)⟩

/-- `input_thread` goes on without a block. -/
theorem RequestInv.inputIdle (hi : RequestInv info s place q batch pend) {pc : InputPc β}
    (h : s.input.hand = none) (hpc : pc.hand = none) (wakeup : Fifo → Bool) :
    RequestInv info {s with input := pc, wakeup := wakeup} place q batch pend := by
  refine hi.idle hi.out hi.ring (hi.located.congr fun i k => ?_) rfl rfl (fun k hk => ?_)
    fun _ _ _ => rfl
  · cases i with
    | input =>
      show pc.hand = some k ↔ s.input.hand = some k
      rw [h, hpc]
    | remote | queue | fifo | link | output => exact Iff.rfl
  · have hhand := hi.input_only hk
    rw [h] at hhand
    cases hhand

/-- `input_thread` goes on with the block it has. -/
theorem RequestInv.inputStay (hi : RequestInv info s place q batch pend) {pc : InputPc β}
    {mem : β → Mreqb} {log' : List (RequestEvent β)} (log : List (RequestEvent β))
    (hm : s.input.hand = some m) (hpc : pc.hand = some m) (hout : OutputInv {s.out with mem := mem} batch pend)
    (hmem : ∀ k, k ≠ m → mem k = s.out.mem k) (hlog : log' = s.log ++ log)
    (hblock : ∀ e ∈ log, e.block = m) (hlife : ∀ p, s.Stands info m .input p →
      ∃ p', (requestLife info m).exec p log = some p' ∧
        RequestState.Stands info {s with out := {s.out with mem := mem}, input := pc, log := log'}
          m .input p') :
    RequestInv info {s with out := {s.out with mem := mem}, input := pc, log := log'}
      place q batch pend := by
  have hplace := hi.input hm
  refine hi.move (m := m) _ hout hi.ring (hi.located.congr fun i k => ?_) (fun _ _ => rfl) hlog
    hblock hmem (fun k hk hin => ?_) (fun _ _ _ _ => rfl) ?_
  · cases i with
    | input =>
      show pc.hand = some k ↔ s.input.hand = some k
      rw [hm, hpc]
    | remote | queue | fifo | link | output => exact Iff.rfl
  · have hhand := hi.input_only hin
    rw [hm] at hhand
    cases hhand
    exact absurd rfl hk
  · rw [hplace]
    exact hlife

/-- The thread behind a FIFO goes on without a block. -/
theorem RequestInv.fifoIdle (hi : RequestInv info s place q batch pend) {f : Fifo} {pc : FifoPc β}
    (h : (s.fifo f).hand = none) (hpc : pc.hand = none) (wakeup : Fifo → Bool) :
    RequestInv info {s.setFifo f pc with wakeup := wakeup} place q batch pend := by
  refine hi.idle hi.out hi.ring (hi.located.congr fun i k => ?_) rfl rfl (fun _ _ => rfl)
    fun k g hk => ?_
  · cases i with
    | fifo g =>
      show ((s.setFifo f pc).fifo g).hand = some k ↔ (s.fifo g).hand = some k
      by_cases hg : g = f
      · subst hg
        rw [setFifo_same, h, hpc]
      · rw [setFifo_other _ _ hg]
    | remote | queue | input | link | output => exact Iff.rfl
  · refine setFifo_other _ _ ?_
    intro hg
    subst hg
    have hhand := hi.fifo_only hk
    rw [h] at hhand
    cases hhand

/-- The thread behind a FIFO has handled its block. -/
theorem RequestInv.fifoHandled (hi : RequestInv info s place q batch pend) {f : Fifo}
    (hpc : s.fifo f = .handle m) (status : Word) (allports : Serial.Allports) (argStatus : β → Word) :
    RequestInv info {s.setFifo f (.giveback m status) with
      allports := allports
      argStatus := argStatus
      log := s.log ++ [.handled m status]} place q batch pend := by
  have hplace := hi.fifo (f := f) (m := m) (by rw [hpc]; rfl)
  have hhand : ∀ {g}, g ≠ f → (s.setFifo f (.giveback m status)).fifo g = s.fifo g :=
    fun hg => setFifo_other _ _ hg
  refine hi.move (m := m) _ hi.out hi.ring (hi.located.congr fun i k => ?_) (fun _ _ => rfl) rfl
    (fun e he => ?_) (fun _ _ => rfl) (fun _ _ _ => rfl) (fun k hk g hg => ?_) fun p hp => ?_
  · cases i with
    | fifo g =>
      show ((s.setFifo f (.giveback m status)).fifo g).hand = some k ↔ (s.fifo g).hand = some k
      by_cases hg : g = f
      · subst hg
        rw [setFifo_same, hpc]
        exact Iff.rfl
      · rw [hhand hg]
    | remote | queue | input | link | output => exact Iff.rfl
  · rw [List.mem_singleton.mp he]
    rfl
  · refine hhand ?_
    intro he
    subst he
    have hk' := hi.fifo_only hg
    rw [hpc] at hk'
    cases hk'
    exact hk rfl
  · rw [hplace] at hp ⊢
    simp only [RequestState.Stands, hpc] at hp
    obtain ⟨rfl, _, func, hfunc, _⟩ := hp
    refine ⟨.handled status, requestLife_single rfl ?_, ?_⟩
    · simp [CmdInfo.live, hfunc]
    · simp [RequestState.Stands]

/-! ### From hand to hand -/

omit [DecidableEq β] in
theorem head_ne (f : Fifo) : (f.head : Node β) ≠ .outputPending ∧ (f.head : Node β) ≠ .tempHead ∧
    (∀ m, (f.head : Node β) ≠ .mreqb m) ∧ ∀ g, g ≠ f → (g.head : Node β) ≠ f.head := by
  cases f with
  | serial =>
    refine ⟨by simp [Fifo.head], by simp [Fifo.head], by simp [Fifo.head], fun g hg => ?_⟩
    cases g with
    | serial => exact absurd rfl hg
    | nand => simp [Fifo.head]
  | nand =>
    refine ⟨by simp [Fifo.head], by simp [Fifo.head], by simp [Fifo.head], fun g hg => ?_⟩
    cases g with
    | serial => simp [Fifo.head]
    | nand => exact absurd rfl hg

/-- What only touches one FIFO and one block keeps the rest of the lists. -/
theorem RequestInv.relink (hi : RequestInv info s place q batch pend) {f : Fifo} {links : Links β}
    (hframe : ∀ x, x ∉ f.head :: nodes (q f) → x ≠ .mreqb m → links x = s.out.links x)
    (hm : place m = .input ∨ place m = .queue f) :
    OutputInv {s.out with links := links} batch pend ∧
      ∀ g, g ≠ f → IsRing links g.head (nodes (q g)) := by
  obtain ⟨hpending, htemp, hblock, hother⟩ := head_ne (β := β) f
  have houtside : ∀ {i k}, place k = i → i ≠ .queue f → Node.mreqb k ∉ f.head :: nodes (q f) := by
    intro i k hk hne
    simp only [List.mem_cons, mreqb_mem_nodes, not_or]
    refine ⟨(hblock k).symm, fun hin => ?_⟩
    rw [hi.queue_iff, hk] at hin
    exact hne hin
  have hapart : ∀ {i k}, place k = i → i ≠ .input → i ≠ .queue f → (.mreqb k : Node β) ≠ .mreqb m := by
    intro i k hk hinput hqueue he
    cases he
    rcases hm with hm | hm
    · exact hinput (hk.symm.trans hm)
    · exact hqueue (hk.symm.trans hm)
  refine ⟨hi.out.relink (hframe _ ?_ (by simp)) (hframe _ ?_ (by simp)) fun k hk => ?_, fun g hg => ?_⟩
  · simpa using hpending.symm
  · simpa using htemp.symm
  · rw [hi.output_iff] at hk
    exact hframe _ (houtside hk (by simp)) (hapart hk (by simp) (by simp))
  · refine (hi.ring g).congr fun x hx => ?_
    rcases List.mem_cons.mp hx with rfl | hx
    · refine hframe _ ?_ ((head_ne g).2.2.1 m)
      simp only [List.mem_cons, not_or]
      refine ⟨hother g hg, fun hin => ?_⟩
      obtain ⟨k, _, hk⟩ := List.mem_map.mp hin
      exact (head_ne g).2.2.1 k hk.symm
    · obtain ⟨k, hk, rfl⟩ := List.mem_map.mp hx
      rw [hi.queue_iff] at hk
      have hne : Place.queue g ≠ Place.queue f := by simpa using hg
      exact hframe _ (houtside hk hne) (hapart hk (by simp) hne)

theorem receive_inv (hi : RequestInv info s place q batch pend) {v : Mreqb}
    {node : ListHead (Node β)} (hpc : s.input = .get)
    (hcount : receivedCount m s.log = leftCount m s.log) (hline : LineOk info v) :
    RequestInv info {s with
      out := {s.out with
        mem := Function.update s.out.mem m v
        links := Function.update s.out.links (.mreqb m) node}
      input := .request m
      log := s.log ++ [.received m v.cmd]} (Function.update place m .input) q batch pend := by
  have hremote := hi.remote hcount
  have hqueued : m ∉ batch ++ pend := by
    rw [hi.output_iff, hremote]
    simp
  refine hi.move (m := m) _ ?_ (fun f => (hi.ring f).congr fun x hx => Function.update_of_ne ?_ _ _)
    (hi.located.move hremote (by simp) (fun l _ hl k => ?_) (fun h => absurd rfl h) fun _ k => ?_)
    (fun k hk => Function.update_of_ne hk _ _) rfl (fun e he => ?_)
    (fun k hk => Function.update_of_ne hk _ _) (fun k _ hk => ?_) (fun _ _ _ _ => rfl) fun p hp => ?_
  · refine (hi.out.rewrite hqueued v).relink (by simp) (by simp) fun k hk => ?_
    have hne : k ≠ m := fun he => hqueued (he ▸ hk)
    simp [hne]
  · rcases List.mem_cons.mp hx with rfl | hx
    · exact (head_ne f).2.2.1 m
    · intro he
      subst he
      rw [mreqb_mem_nodes, hi.queue_iff, hremote] at hx
      cases hx
  · cases l with
    | input => exact absurd rfl hl
    | remote | queue | fifo | link | output => exact Iff.rfl
  · simp [RequestState.at, InputPc.hand, hpc, eq_comm]
  · rw [List.mem_singleton.mp he]
    rfl
  · have hhand := hi.input_only hk
    rw [hpc] at hhand
    cases hhand
  · rw [hremote] at hp
    cases hp
    refine ⟨.received v.cmd, requestLife_single rfl rfl, ?_⟩
    rw [Function.update_self]
    simpa only [RequestState.Stands, Function.update_self, true_and] using hline

theorem put_inv (hi : RequestInv info s place q batch pend) {func : CmdFunc} {f : Fifo}
    (hpc : s.input = .call m func) (hf : func.fifo = some f) :
    RequestInv info {s with
      out := {s.out with links := mreqbFifoPut s.out.links f.head m}
      input := .wakeup m f}
      (Function.update place m (.queue f)) (Function.update q f (q f ++ [m])) batch pend := by
  have hplace := hi.input (m := m) (by rw [hpc]; rfl)
  have hm : m ∉ q f := by
    rw [hi.queue_iff, hplace]
    simp
  obtain ⟨hout, hring⟩ := hi.relink (m := m) (fun x hx hxm => fifoPut_frame (hi.ring f) hx hxm)
    (.inl hplace)
  refine hi.move (m := m) [] hout (fun g => ?_)
    (hi.located.move hplace (by simp) (fun l hl hl' k => ?_) (fun _ k => ?_) fun _ k => ?_)
    (fun k hk => Function.update_of_ne hk _ _) (List.append_nil _).symm (fun e he => by cases he)
    (fun _ _ => rfl) (fun k hk hin => ?_) (fun _ _ _ _ => rfl) fun p hp => ?_
  · by_cases hg : g = f
    · subst hg
      rw [Function.update_self]
      exact fifoPut_ring (hi.ring g) (head_ne g).2.2.1 hm
    · rw [Function.update_of_ne hg]
      exact hring g hg
  · cases l with
    | input => exact absurd rfl hl
    | queue g =>
      have hg : g ≠ f := fun he => hl' (by rw [he])
      simp only [RequestState.at, Function.update_of_ne hg]
    | remote | fifo | link | output => exact Iff.rfl
  · simp only [RequestState.at, hpc, InputPc.hand, Option.some.injEq, reduceCtorEq, false_iff]
    exact fun he => he.2 he.1.symm
  · simp [RequestState.at]
  · have hhand := hi.input_only hin
    rw [hpc] at hhand
    cases hhand
    exact absurd rfl hk
  · rw [hplace] at hp
    rw [Function.update_self]
    simp only [RequestState.Stands, hpc] at hp
    exact ⟨p, rfl, hp.1, hp.2.1, func, hp.2.2, hf⟩

theorem get_inv (hi : RequestInv info s place q batch pend) {f : Fifo} {links : Links β}
    (hpc : s.fifo f = .lock) (hget : mreqbFifoGet s.out.links f.head = (some m, links)) :
    ∃ rest, RequestInv info {s.setFifo f (.handle m) with out := {s.out with links := links}}
      (Function.update place m (.fifo f)) (Function.update q f rest) batch pend := by
  rcases fifoGet_cases (hi.ring f) with ⟨_, hnone⟩ | ⟨b, rest, hq, hsome, hring, hframe⟩
  · rw [hnone] at hget
    cases hget
  · rw [hsome] at hget
    cases hget
    have hplace : place m = .queue f := by
      rw [← hi.queue_iff, hq]
      exact List.mem_cons_self
    have hnodup : m ∉ rest := by
      have hnd := (hi.ring f).nodup
      rw [hq] at hnd
      simp only [List.map_cons, List.nodup_cons, mreqb_mem_nodes] at hnd
      exact hnd.2.1
    obtain ⟨hout, hother⟩ := hi.relink (m := m) (fun x hx _ => hframe x hx) (.inr hplace)
    refine ⟨rest, hi.move (m := m) [] hout (fun g => ?_)
      (hi.located.move hplace (by simp) (fun l hl hl' k => ?_) (fun _ k => ?_) fun _ k => ?_)
      (fun k hk => Function.update_of_ne hk _ _) (List.append_nil _).symm (fun e he => by cases he)
      (fun _ _ => rfl) (fun _ _ _ => rfl) (fun k hk g hg => setFifo_other _ _ ?_) fun p hp => ?_⟩
    · by_cases hg : g = f
      · subst hg
        rw [Function.update_self]
        exact hring
      · rw [Function.update_of_ne hg]
        exact hother g hg
    · cases l with
      | fifo g =>
        have hg : g ≠ f := fun he => hl' (by rw [he])
        show ((s.setFifo f (.handle m)).fifo g).hand = some k ↔ (s.fifo g).hand = some k
        rw [setFifo_other _ _ hg]
      | queue g =>
        have hg : g ≠ f := fun he => hl (by rw [he])
        simp only [RequestState.at, Function.update_of_ne hg]
      | remote | input | link | output => exact Iff.rfl
    · simp only [RequestState.at, Function.update_self, hq, List.mem_cons]
      refine ⟨fun hk => ⟨.inr hk, fun he => hnodup (he ▸ hk)⟩, fun hk => hk.1.resolve_left hk.2⟩
    · show ((s.setFifo f (.handle m)).fifo f).hand = some k ↔ (s.fifo f).hand = some k ∨ k = m
      rw [setFifo_same, hpc]
      simp [FifoPc.hand, eq_comm]
    · intro he
      subst he
      have hhand := hi.fifo_only hg
      rw [hpc] at hhand
      cases hhand
    · rw [hplace] at hp
      rw [Function.update_self]
      refine ⟨p, rfl, ?_⟩
      simp only [RequestState.Stands, setFifo_same]
      exact hp

/-! ### The output path -/

/-- A step of the output path on blocks that are in no list keeps the FIFOs, and what
it links and the mailbox accepts is what its own lists gain and lose. -/
theorem RequestInv.outputStep (hi : RequestInv info s place q batch pend)
    {a : OutputAction β Server} {out : OutputState β Server}
    (hblocks : ∀ k ∈ a.blocks s.out, place k ≠ .output ∧ ∀ f, place k ≠ .queue f)
    (hs : outputStep s.out a = some out) :
    ∃ batch' pend', OutputInv out batch' pend' ∧
      (∀ f, IsRing out.links f.head (nodes (q f))) ∧
      ∀ k, (batch' ++ pend').count k + (a.accepted s.out).count k =
        (batch ++ pend).count k + (a.linked s.out).count k := by
  have hqueued : ∀ k ∈ a.blocks s.out, ¬ s.out.Queued k := fun k hk =>
    mt (hi.out.queued_iff k).mp fun hin => (hblocks k hk).1 (hi.output_iff.mp hin)
  obtain ⟨batch', pend', hout⟩ :=
    outputStep_inv ⟨batch, pend, hi.out⟩ (notQueued_of_blocks hqueued) hs
  refine ⟨batch', pend', hout, fun f => (hi.ring f).congr fun x hx => ?_,
    fun k => outputStep_count hi.out hout hs k⟩
  obtain ⟨hpending, htemp, hblock, _⟩ := head_ne (β := β) f
  rcases List.mem_cons.mp hx with rfl | hx
  · refine outputStep_frame hi.out hs hpending htemp (fun hin => ?_) fun k _ => hblock k
    obtain ⟨k, _, hk⟩ := List.mem_map.mp hin
    exact hblock k hk.symm
  · obtain ⟨k, hk, rfl⟩ := List.mem_map.mp hx
    rw [hi.queue_iff] at hk
    refine outputStep_frame hi.out hs (by simp) (by simp) ?_ fun b hb he => ?_
    · rw [mreqb_mem_nodes, hi.output_iff, hk]
      simp
    · cases he
      exact (hblocks k hb).2 f hk

/-- What `mreqb_giveback` makes of the output path before the block is linked. -/
theorem RequestInv.giveback (hi : RequestInv info s place q batch pend) {t : Server}
    {status : Word} {out : OutputState β Server} (hplace : place m ≠ .output)
    (hqueue : ∀ f, place m ≠ .queue f)
    (hs : Micproto.outputStep s.out (.giveback t m status) = some out) :
    ∃ batch' pend', OutputInv out batch' pend' ∧
      (∀ f, IsRing out.links f.head (nodes (q f))) ∧
      (∀ k, k ∈ batch' ++ pend' ↔ k ∈ batch ++ pend) ∧
      (∀ c, c ≠ t → out.submitter c = s.out.submitter c) ∧
      (∀ k, out.submitter t = .insert k ↔ s.out.submitter t = .insert k ∨ k = m) ∧
      (∀ k, k ≠ m → out.mem k = s.out.mem k) ∧ Answered (out.mem m) (.gaveBack status) := by
  obtain ⟨batch', pend', hout, hring, hcount⟩ := hi.outputStep (fun k hk => by
    have hkm : k = m := by simpa [OutputAction.blocks] using hk
    rw [hkm]
    exact ⟨hplace, hqueue⟩) hs
  refine ⟨batch', pend', hout, hring, fun k => ?_, ?_⟩
  · have hk : (batch' ++ pend').count k = (batch ++ pend).count k := hcount k
    rw [← List.count_pos_iff, ← List.count_pos_iff, hk]
  · cases outputStep_cases hs with
    | giveback ht =>
      refine ⟨fun c hc => setSubmitter_other _ _ hc, fun k => ?_,
        fun k hk => Function.update_of_ne hk _ _, ?_⟩
      · rw [show (s.out.setSubmitter t (.insert m)).submitter t = .insert m from setSubmitter_same _ _ _,
          ht]
        simp [eq_comm]
      · show Answered (Function.update s.out.mem m ((s.out.mem m).givenBack status) m) _
        rw [Function.update_self]
        exact ⟨rfl, givenBack_isResponse _ _⟩

theorem giveback_inv (hi : RequestInv info s place q batch pend) {status : Word}
    {out : OutputState β Server} (hpc : s.input = .giveback m status)
    (hs : Micproto.outputStep s.out (.giveback .input m status) = some out) :
    ∃ batch' pend', RequestInv info
      {s with out := out, input := .submit, log := s.log ++ [.gaveBack m status]}
      (Function.update place m (.link .input)) q batch' pend' := by
  have hplace := hi.input (m := m) (by rw [hpc]; rfl)
  obtain ⟨batch', pend', hout, hring, hmem, hother, hlink, hkeep, hanswer⟩ :=
    hi.giveback (by simp [hplace]) (by simp [hplace]) hs
  refine ⟨batch', pend', hi.move (m := m) _ hout hring
    (hi.located.move hplace (by simp) (fun l hl hl' k => ?_) (fun _ k => ?_) fun _ k => hlink k)
    (fun k hk => Function.update_of_ne hk _ _) rfl (fun e he => ?_) hkeep (fun k hk hin => ?_)
    (fun _ _ _ _ => rfl) fun p hp => ?_⟩
  · cases l with
    | input => exact absurd rfl hl
    | link c =>
      have hc : c ≠ .input := fun he => hl' (by rw [he])
      simp only [RequestState.at, hother c hc]
    | output => exact hmem k
    | remote | queue | fifo => exact Iff.rfl
  · simp only [RequestState.at, hpc, InputPc.hand, Option.some.injEq, reduceCtorEq, false_iff]
    exact fun he => he.2 he.1.symm
  · rw [List.mem_singleton.mp he]
    rfl
  · have hhand := hi.input_only hin
    rw [hpc] at hhand
    cases hhand
    exact absurd rfl hk
  · rw [hplace] at hp
    rw [Function.update_self]
    simp only [RequestState.Stands, hpc] at hp
    subst hp
    exact ⟨.gaveBack status, requestLife_single rfl (if_pos rfl), hanswer⟩

theorem fifoGiveback_inv (hi : RequestInv info s place q batch pend) {f : Fifo} {status : Word}
    {out : OutputState β Server} (hpc : s.fifo f = .giveback m status)
    (hs : Micproto.outputStep s.out (.giveback (.fifo f) m status) = some out) :
    ∃ batch' pend', RequestInv info
      {s.setFifo f .submit with out := out, log := s.log ++ [.gaveBack m status]}
      (Function.update place m (.link (.fifo f))) q batch' pend' := by
  have hplace := hi.fifo (f := f) (m := m) (by rw [hpc]; rfl)
  obtain ⟨batch', pend', hout, hring, hmem, hother, hlink, hkeep, hanswer⟩ :=
    hi.giveback (by simp [hplace]) (by simp [hplace]) hs
  refine ⟨batch', pend', hi.move (m := m) _ hout hring
    (hi.located.move hplace (by simp) (fun l hl hl' k => ?_) (fun _ k => ?_) fun _ k => hlink k)
    (fun k hk => Function.update_of_ne hk _ _) rfl (fun e he => ?_) hkeep (fun _ _ _ => rfl)
    (fun k hk g hg => setFifo_other _ _ ?_) fun p hp => ?_⟩
  · cases l with
    | fifo g =>
      have hg : g ≠ f := fun he => hl (by rw [he])
      show ((s.setFifo f .submit).fifo g).hand = some k ↔ (s.fifo g).hand = some k
      rw [setFifo_other _ _ hg]
    | link c =>
      have hc : c ≠ .fifo f := fun he => hl' (by rw [he])
      simp only [RequestState.at, hother c hc]
    | output => exact hmem k
    | remote | queue | input => exact Iff.rfl
  · show ((s.setFifo f .submit).fifo f).hand = some k ↔ (s.fifo f).hand = some k ∧ k ≠ m
    rw [setFifo_same, hpc]
    simp only [FifoPc.hand, Option.some.injEq, reduceCtorEq, false_iff]
    exact fun he => he.2 he.1.symm
  · rw [List.mem_singleton.mp he]
    rfl
  · intro he
    subst he
    have hhand := hi.fifo_only hg
    rw [hpc] at hhand
    cases hhand
    exact hk rfl
  · rw [hplace] at hp
    rw [Function.update_self]
    simp only [RequestState.Stands, hpc] at hp
    subst hp
    exact ⟨.gaveBack status, requestLife_single rfl (if_pos rfl), hanswer⟩

/-- The output path moves no block. -/
theorem RequestInv.outIdle (hi : RequestInv info s place q batch pend)
    {a : OutputAction β Server} {out : OutputState β Server}
    (hs : Micproto.outputStep s.out a = some out) (hblocks : a.blocks s.out = [])
    (haccepted : a.accepted s.out = []) (hlinked : a.linked s.out = [])
    (hleaving : leaving s.out a = []) (hwritten : a.written = [])
    (hsubmitter : ∀ c k, out.submitter c = .insert k ↔ s.out.submitter c = .insert k) :
    ∃ batch' pend', RequestInv info {s with out := out, log := s.log ++ leaving s.out a}
      place q batch' pend' := by
  obtain ⟨batch', pend', hout, hring, hcount⟩ := hi.outputStep (by simp [hblocks]) hs
  refine ⟨batch', pend', hi.idle hout hring (hi.located.congr fun i k => ?_) ?_ (funext fun k => ?_)
    (fun _ _ => rfl) fun _ _ _ => rfl⟩
  · cases i with
    | link c => exact hsubmitter c k
    | output =>
      have hk := hcount k
      rw [haccepted, hlinked] at hk
      show k ∈ batch' ++ pend' ↔ k ∈ batch ++ pend
      rw [← List.count_pos_iff, ← List.count_pos_iff]
      simp only [List.count_nil, Nat.add_zero] at hk
      rw [hk]
    | remote | input | queue | fifo => exact Iff.rfl
  · rw [hleaving, List.append_nil]
  · exact outputStep_mem hs (by simp [hwritten])

theorem insert_inv (hi : RequestInv info s place q batch pend) {t : Server}
    {out : OutputState β Server} (hs : Micproto.outputStep s.out (.insert t) = some out) :
    ∃ place' batch' pend', RequestInv info {s with out := out} place' q batch' pend' := by
  have hmem : ∀ k, out.mem k = s.out.mem k := fun k => outputStep_mem hs List.not_mem_nil
  cases outputStep_cases hs with
  | @insert t m ht =>
    have hplace := hi.link ht
    obtain ⟨batch', pend', hout, hring, hcount⟩ := hi.outputStep (fun k hk => by
      have hkm : k = m := by simpa [OutputAction.blocks, ht] using hk
      rw [hkm, hplace]
      simp) hs
    have hcount : ∀ k, (batch' ++ pend').count k = (batch ++ pend).count k + [m].count k := by
      intro k
      have hk := hcount k
      simp only [OutputAction.linked, ht] at hk
      exact hk
    refine ⟨_, batch', pend', hi.move (m := m) [] hout hring
      (hi.located.move (j := .output) hplace (by simp) (fun l hl hl' k => ?_) (fun _ k => ?_)
        fun _ k => ?_)
      (fun k hk => Function.update_of_ne hk _ _) (List.append_nil _).symm (fun e he => by cases he)
      (fun k _ => hmem k) (fun _ _ _ => rfl) (fun _ _ _ _ => rfl) fun p hp => ?_⟩
    · cases l with
      | link c =>
        have hc : c ≠ t := fun he => hl (by rw [he])
        show (s.out.setSubmitter t .setbits).submitter c = .insert k ↔ s.out.submitter c = .insert k
        rw [setSubmitter_other _ _ hc]
      | output => exact absurd rfl hl'
      | remote | input | queue | fifo => exact Iff.rfl
    · show (s.out.setSubmitter t .setbits).submitter t = .insert k ↔
        s.out.submitter t = .insert k ∧ k ≠ m
      rw [setSubmitter_same, ht]
      simp only [SubmitPc.insert.injEq, reduceCtorEq, false_iff]
      exact fun he => he.2 he.1.symm
    · show k ∈ batch' ++ pend' ↔ k ∈ batch ++ pend ∨ k = m
      rw [← List.count_pos_iff, ← List.count_pos_iff, hcount k, Nat.add_pos_iff_pos_or_pos,
        List.count_pos_iff (l := [m]), List.mem_singleton]
    · rw [hplace] at hp
      rw [Function.update_self]
      exact ⟨p, rfl, Eq.subst (motive := fun v => Answered v p) (hmem m).symm hp⟩

theorem accepted_inv (hi : RequestInv info s place q batch pend) {out : OutputState β Server}
    (hs : Micproto.outputStep s.out (.put true) = some out) :
    ∃ place' batch' pend', RequestInv info
      {s with out := out, log := s.log ++ leaving s.out (.put true)} place' q batch' pend' := by
  have hmem : ∀ k, out.mem k = s.out.mem k := fun k => outputStep_mem hs List.not_mem_nil
  obtain ⟨batch', pend', hout, hring, hcount⟩ := hi.outputStep (fun k hk => by cases hk) hs
  cases outputStep_cases hs with
  | @accepted m next hpc =>
    have hcount : ∀ k, (batch' ++ pend').count k + [m].count k = (batch ++ pend).count k := by
      intro k
      have hk := hcount k
      simp only [OutputAction.accepted, hpc] at hk
      exact hk
    have hplace : place m = .output := by
      have hk := hcount m
      rw [List.count_singleton_self] at hk
      rw [← hi.output_iff, ← List.count_pos_iff]
      omega
    have hleaving : leaving s.out (.put true) = [.left m (s.out.mem m)] := by
      simp only [leaving, hpc]
    refine ⟨_, batch', pend', hi.move (m := m) _ hout hring
      (hi.located.move (j := .remote) hplace (by simp) (fun l hl _ k => ?_) (fun _ k => ?_)
        fun hr => absurd rfl hr)
      (fun k hk => Function.update_of_ne hk _ _) rfl (fun e he => ?_)
      (fun k _ => hmem k) (fun _ _ _ => rfl) (fun _ _ _ _ => rfl) fun p hp => ?_⟩
    · cases l with
      | output => exact absurd rfl hl
      | remote | input | queue | fifo | link => exact Iff.rfl
    · have hk := hcount k
      have hle := List.nodup_iff_count_le_one.mp hi.out.nodup k
      show k ∈ batch' ++ pend' ↔ k ∈ batch ++ pend ∧ k ≠ m
      rw [← List.count_pos_iff, ← List.count_pos_iff]
      by_cases hkm : k = m
      · subst hkm
        rw [List.count_singleton_self] at hk
        simp only [ne_eq, not_true_eq_false, and_false, iff_false]
        omega
      · have hnone : [m].count k = 0 := List.count_eq_zero_of_not_mem (by simpa using hkm)
        rw [← hk, hnone, Nat.add_zero]
        exact (and_iff_left hkm).symm
    · rw [hleaving] at he
      rw [List.mem_singleton.mp he]
      rfl
    · rw [hplace] at hp
      rw [Function.update_self, hleaving]
      obtain ⟨rfl, hresponse⟩ := hp
      exact ⟨.away, requestLife_single rfl (if_pos ⟨hresponse, rfl⟩), rfl⟩

theorem out_inv (hi : RequestInv info s place q batch pend) {a : OutputAction β Server}
    {out : OutputState β Server} (ha : onItsOwn a = true)
    (hs : Micproto.outputStep s.out a = some out) :
    ∃ place' batch' pend', RequestInv info
      {s with out := out, log := s.log ++ leaving s.out a} place' q batch' pend' := by
  cases a with
  | submit | giveback | own => cases ha
  | insert t =>
    obtain ⟨place', batch', pend', hu⟩ := insert_inv hi hs
    refine ⟨place', batch', pend', ?_⟩
    simpa only [leaving, List.append_nil] using hu
  | setbits t =>
    refine ⟨place, hi.outIdle hs rfl rfl rfl rfl rfl fun c k => ?_⟩
    cases outputStep_cases hs with
    | setbits ht =>
      show (s.out.setSubmitter t .outside).submitter c = .insert k ↔ s.out.submitter c = .insert k
      by_cases hc : c = t
      · subst hc
        rw [setSubmitter_same, ht]
        simp
      · rw [setSubmitter_other _ _ hc]
  | take | flagWait | clean | detach | unlink =>
    refine ⟨place, hi.outIdle hs rfl rfl rfl rfl rfl fun c k => ?_⟩
    cases outputStep_cases hs <;> exact Iff.rfl
  | put accepted =>
    cases accepted with
    | true => exact accepted_inv hi hs
    | false =>
      refine ⟨place, hi.outIdle hs rfl rfl rfl rfl rfl fun c k => ?_⟩
      cases outputStep_cases hs with
      | refused => exact Iff.rfl

/-! ### Every run -/

theorem requestStep_inv {a : RequestAction β}
    (hi : ∃ place q batch pend, RequestInv info s place q batch pend) (ha : RequestOk info s a)
    (h : requestStep info s a = some u) :
    ∃ place q batch pend, RequestInv info u place q batch pend := by
  obtain ⟨place, q, batch, pend, hi⟩ := hi
  cases requestStep_cases h with
  | receive hpc => exact ⟨_, q, batch, pend, receive_inv hi hpc ha.1 ha.2⟩
  | @found m func hpc hfunc =>
    refine ⟨place, q, batch, pend, hi.inputStay (m := m) [] (by rw [hpc]; rfl) rfl hi.out
      (fun _ _ => rfl) (List.append_nil _).symm (fun e he => by cases he) fun p hp => ?_⟩
    simp only [RequestState.Stands, hpc] at hp
    exact ⟨p, rfl, hp.1, hp.2, hfunc⟩
  | @missing m hpc hnone =>
    refine ⟨place, q, batch, pend, hi.inputStay (m := m) _ (by rw [hpc]; rfl) rfl hi.out
      (fun _ _ => rfl) rfl (fun e he => by rw [List.mem_singleton.mp he]; rfl) fun p hp => ?_⟩
    simp only [RequestState.Stands, hpc] at hp
    obtain ⟨rfl, _⟩ := hp
    exact ⟨.handled mreqbRetNohandle, requestLife_single rfl (if_pos hnone), rfl⟩
  | @other m id v status hpc =>
    have hstatus : status ≠ mreqbRetPending := ha
    have hplace := hi.input (m := m) (by rw [hpc]; rfl)
    have hqueued : m ∉ batch ++ pend := by
      rw [hi.output_iff, hplace]
      simp
    refine ⟨place, q, batch, pend, hi.inputStay (m := m) _ (by rw [hpc]; rfl) (returned_status m hstatus)
      (hi.out.rewrite hqueued v) (fun k hk => Function.update_of_ne hk _ _) rfl
      (fun e he => by rw [List.mem_singleton.mp he]; rfl) fun p hp => ?_⟩
    simp only [RequestState.Stands, hpc] at hp
    obtain ⟨rfl, _, hfunc⟩ := hp
    refine ⟨.handled status, requestLife_single rfl ?_, rfl⟩
    simp [CmdInfo.live, hfunc]
  | put hpc hf => exact ⟨_, _, batch, pend, put_inv hi hpc hf⟩
  | setbits hpc =>
    exact ⟨place, q, batch, pend, hi.inputIdle (by rw [hpc]; rfl) (returned_pending _) _⟩
  | @answer m ret hpc hret =>
    refine ⟨place, q, batch, pend, hi.inputStay (m := m) []
      (by rw [hpc, returned_status m hret.symm]) rfl hi.out (fun _ _ => rfl) (List.append_nil _).symm
      (fun e he => by cases he) fun p hp => ?_⟩
    simp only [RequestState.Stands, hpc] at hp
    exact ⟨p, rfl, hp⟩
  | deferred hpc =>
    exact ⟨place, q, batch, pend, hi.inputIdle (by rw [hpc, returned_pending]) rfl _⟩
  | giveback hpc hs =>
    obtain ⟨batch', pend', hu⟩ := giveback_inv hi hpc hs
    exact ⟨_, q, batch', pend', hu⟩
  | submitted hpc _ => exact ⟨place, q, batch, pend, hi.inputIdle (by rw [hpc]; rfl) rfl _⟩
  | get hpc hget =>
    obtain ⟨rest, hu⟩ := get_inv hi hpc hget
    exact ⟨_, _, batch, pend, hu⟩
  | empty hpc _ => exact ⟨place, q, batch, pend, hi.fifoIdle (by rw [hpc]; rfl) rfl _⟩
  | wait hpc _ => exact ⟨place, q, batch, pend, hi.fifoIdle (by rw [hpc]; rfl) rfl _⟩
  | serial hpc _ => exact ⟨place, q, batch, pend, hi.fifoHandled hpc _ _ _⟩
  | nand hpc => exact ⟨place, q, batch, pend, hi.fifoHandled hpc _ _ _⟩
  | fifoGiveback hpc hs =>
    obtain ⟨batch', pend', hu⟩ := fifoGiveback_inv hi hpc hs
    exact ⟨_, q, batch', pend', hu⟩
  | fifoSubmitted hpc _ => exact ⟨place, q, batch, pend, hi.fifoIdle (by rw [hpc]; rfl) rfl _⟩
  | port => exact ⟨place, q, batch, pend, hi.out, hi.ring, hi.located, hi.life⟩
  | out hself hs =>
    obtain ⟨place', batch', pend', hu⟩ := out_inv hi hself hs
    exact ⟨place', q, batch', pend', hu⟩

theorem requestStart_inv (links : Links β) (mem : β → Mreqb) (allports : Serial.Allports)
    (argStatus : β → Word) :
    RequestInv info (requestStart links mem allports argStatus) (fun _ => .remote) (fun _ => [])
      [] [] where
  out := outputStart_inv _ mem
  ring := fun f => by
    cases f with
    | serial =>
      refine (initListHead_isRing links .serialFifo).congr fun x hx => ?_
      rw [List.mem_singleton.mp hx]
      show initListHead (initListHead (initListHead links .serialFifo) .nandFifo) .outputPending
        .serialFifo = _
      rw [initListHead_other _ (by simp), initListHead_other _ (by simp)]
    | nand =>
      refine (initListHead_isRing (initListHead links .serialFifo) .nandFifo).congr fun x hx => ?_
      rw [List.mem_singleton.mp hx]
      show initListHead (initListHead (initListHead links .serialFifo) .nandFifo) .outputPending
        .nandFifo = _
      rw [initListHead_other _ (by simp)]
  located := ⟨fun {i} hi k => by
    cases i with
    | remote => exact absurd rfl hi
    | input | queue | fifo | link | output =>
      simp [RequestState.at, requestStart, outputStart, InputPc.hand, FifoPc.hand]⟩
  life := fun _ => ⟨.away, rfl, rfl⟩

theorem RequestInv.answer_count (hi : RequestInv info s place q batch pend) (m : β) :
    gaveBackCount m s.log ≤ receivedCount m s.log ∧
      receivedCount m s.log ≤ gaveBackCount m s.log + 1 := by
  obtain ⟨p, hp, _⟩ := hi.life m
  have hcount : receivedCount m s.log + 0 = gaveBackCount m s.log + p.unanswered :=
    (requestLife_count hp).1
  have hle : p.unanswered ≤ 1 := by cases p <;> simp [Life.unanswered]
  omega

/-- The thread behind the serial ports' FIFO indexes `allports` within its bounds. -/
theorem RequestInv.serial_line (hi : RequestInv info s place q batch pend)
    (hpc : s.fifo .serial = .handle m) :
    Serial.handleMbserialRequest s.allports (s.out.mem m) ≠ none := by
  obtain ⟨p, _, hstands⟩ := hi.life m
  rw [hi.fifo (f := .serial) (m := m) (by rw [hpc]; rfl)] at hstands
  simp only [RequestState.Stands, hpc] at hstands
  obtain ⟨_, hline, func, hfunc, hserial⟩ := hstands
  have hdo : func = .doMbserialRequest := by
    cases func with
    | doMbserialRequest => rfl
    | doMbnandRequest | other => cases hserial
  rw [hdo] at hfunc
  exact Serial.handleMbserialRequest_line (hline hfunc)

/-- No answer is owed for a block in no thread's hands and in no FIFO. -/
theorem RequestInv.quiet (hi : RequestInv info s place q batch pend) (hinput : s.input = .get)
    (hfifo : ∀ f, s.fifo f = .wait ∧ listEmpty s.out.links f.head = true) (m : β) :
    gaveBackCount m s.log = receivedCount m s.log := by
  obtain ⟨p, hp, hstands⟩ := hi.life m
  have hcount : receivedCount m s.log + 0 = gaveBackCount m s.log + p.unanswered :=
    (requestLife_count hp).1
  have hnone : p.unanswered = 0 := by
    cases hm : place m with
    | remote =>
      rw [hm] at hstands
      rw [show p = .away from hstands]
      rfl
    | input =>
      have hhand := hi.input_only hm
      rw [hinput] at hhand
      cases hhand
    | queue f =>
      rw [← hi.queue_iff, nodes_eq_nil.mp ((hi.ring f).listEmpty_iff.mp (hfifo f).2)] at hm
      cases hm
    | fifo f =>
      have hhand := hi.fifo_only hm
      rw [(hfifo f).1] at hhand
      cases hhand
    | link | output =>
      rw [hm] at hstands
      rw [hstands.1]
      rfl
  omega

/-- **Every request is answered exactly once**, in every state reached: the history
of each block is that of requests received, handled or found without a handler, given
back once with the status of that, and leaving with `RESPONSE_BIT` and that result; the
serial ports' thread has a port or an error for every line; and when `input_thread` and
the threads behind the FIFOs wait and the FIFOs are empty, no answer is owed. -/
theorem requests_answered {links : Links β} {mem : β → Mreqb} {allports : Serial.Allports}
    {argStatus : β → Word}
    (h : (requests info links mem allports argStatus).ReachableUnder (RequestOk info) s) :
    (∀ m, ∃ p, (requestLife info m).exec .away s.log = some p) ∧
    (∀ m, gaveBackCount m s.log ≤ receivedCount m s.log ∧
      receivedCount m s.log ≤ gaveBackCount m s.log + 1) ∧
    (∀ m, s.fifo .serial = .handle m →
      Serial.handleMbserialRequest s.allports (s.out.mem m) ≠ none) ∧
    (s.input = .get → (∀ f, s.fifo f = .wait ∧ listEmpty s.out.links f.head = true) →
      ∀ m, gaveBackCount m s.log = receivedCount m s.log) := by
  have hinv := h.invariant (I := fun s => ∃ place q batch pend, RequestInv info s place q batch pend)
    ⟨_, _, _, _, requestStart_inv links mem allports argStatus⟩ requestStep_inv
  obtain ⟨place, q, batch, pend, hi⟩ := hinv
  refine ⟨fun m => ?_, hi.answer_count, fun m => hi.serial_line, hi.quiet⟩
  obtain ⟨p, hp, _⟩ := hi.life m
  exact ⟨p, hp⟩

/-- After `mf_mbserial_init` and `mf_mbnand_init`. -/
def registered : CmdInfo := fun cmd =>
  if cmd.val = cSerialRequest.toNat then some .doMbserialRequest
  else if cmd.val = cNandRequest.toNat then some .doMbnandRequest
  else none

/-- A request for port 0, until its answer has left and the thread behind the FIFO waits. -/
def portAnswered (subcmd : Word) : List (RequestAction (Fin 1)) :=
  [.receive 0 {Mreqb.zero with magic := mreqbMagic, cmd := cSerialRequest, subcmd := subcmd}
     ⟨.tempHead, .tempHead⟩,
   .process, .put, .setbits, .ret, .get .serial, .handle .serial ⟨0, 0, 0, 0, 0, 0⟩,
   .fifoGiveback .serial, .out (.insert (.fifo .serial)), .out (.setbits (.fifo .serial)),
   .fifoSubmitted .serial, .get .serial, .out .take, .out .clean, .out .clean,
   .out .detach, .out .unlink, .out (.put true)]

/-- Port 0 is started up and shut down by a block that comes back. -/
def portShutDown : List (RequestAction (Fin 1)) :=
  .get .nand :: portAnswered Serial.mbserialCmdStartup ++
    .wait .serial :: portAnswered Serial.mbserialCmdShutdown

theorem requests_answered_two :
    ∃ s : RequestState (Fin 1), s.allports 0 = some 0 ∧ leftCount 0 s.log = 2 ∧
      gaveBackCount 0 s.log = 2 := by
  obtain ⟨s, hs, hport, hinput, hserial, hnand, hreceived, hleft⟩ := Lts.exists_reachableUnder
    (L := requests registered (fun x => ⟨x, x⟩) (fun _ => Mreqb.zero) (fun _ => some 1) fun _ => 0)
    (P := fun s => s.allports 0 = some 0 ∧ s.input = .get ∧
      (s.fifo .serial = .wait ∧ listEmpty s.out.links .serialFifo = true) ∧
      (s.fifo .nand = .wait ∧ listEmpty s.out.links .nandFifo = true) ∧
      receivedCount 0 s.log = 2 ∧ leftCount 0 s.log = 2)
    (RequestOk registered) portShutDown (by decide)
  obtain ⟨_, _, _, hanswered⟩ := requests_answered hs
  refine ⟨s, hport, hleft, (hanswered hinput (fun f => ?_) 0).trans hreceived⟩
  cases f with
  | serial => exact hserial
  | nand => exact hnand

end

end Mflib.Request
