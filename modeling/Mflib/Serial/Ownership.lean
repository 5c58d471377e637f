import Mflib.Micproto.PoolBlocks
import Mflib.Serial.Send

/-! A block of the reserve pool is in one place.

`idle` counts a block on the free list and with the senders that have not filled it
in, `used` counts it from there to its completion. Every step moves blocks from one
place to another, so that the two always make one. A block is as the allocator made
it while it is idle, and its completion is `put_mreqb` while it is used. -/
namespace Mflib.Serial
open Circular Micproto

section
variable {β : Type}

/-- A block a sender has taken from the pool. -/
def SendPc.taken : SendPc β → List β
  | .fill _ _ m => [m]
  | _ => []

/-- A block a sender has filled in. -/
def SendPc.filled : SendPc β → List β
  | .submit _ _ m => [m]
  | _ => []

variable {T : Type} [Fintype T] [DecidableEq β]

def SendState.idle (s : SendState β T) (free : List β) (m : β) : Nat :=
  free.count m + ∑ t, (s.sender t).taken.count m

def SendState.used (s : SendState β T) (batch pend inp : List β) (m : β) : Nat :=
  (∑ t, (s.sender t).filled.count m) + s.net.out.linkCount m + s.net.count batch pend inp m

/-- How many places a block is in: the free list, the senders' hands, `output_pending`,
the batch, the mailbox and the remote, `input_pending`, and the hands of the input side. -/
def SendState.places (s : SendState β T) (batch pend inp free : List β) (m : β) : Nat :=
  s.idle free m + s.used batch pend inp m

structure SendInv (created : β → Mreqb) (s : SendState β T) (batch pend inp free : List β) :
    Prop where
  net : TransportInv s.net batch pend inp
  pool : IsRing s.net.out.links .reservePool (nodes free)
  once : ∀ m, s.places batch pend inp free m = 1
  magic : ∀ m, (s.net.out.mem m).magic = mreqbMagic
  extraData : ∀ m, (s.net.out.mem m).extraData = (created m).extraData
  extraDataSize : ∀ m, (s.net.out.mem m).extraDataSize = (created m).extraDataSize
  fresh : ∀ m, 0 < s.idle free m → s.net.out.mem m = created m
  armed : ∀ m, 0 < s.used batch pend inp m → (s.net.out.mem m).complete = some .putMreqb
  returned : ∀ m, s.returned.count m = s.completed.count m + s.net.back inp m
  submitted : ∀ m, (s.net.out.submitted.map Submission.block).count m =
    s.completed.count m + s.net.count batch pend inp m

variable {created : β → Mreqb} {s u : SendState β T} {batch pend inp free : List β}

/-- Ports, data and results have no part in it. -/
theorem SendInv.others (hi : SendInv created s batch pend inp free) (bytes : β → List Byte)
    (port : Fin maxMbserialNum → MbserialPort T) (result : T → Option Nat) :
    SendInv created {s with bytes := bytes, port := port, result := result} batch pend inp free :=
  ⟨hi.net, hi.pool, hi.once, hi.magic, hi.extraData, hi.extraDataSize, hi.fresh, hi.armed,
    hi.returned, hi.submitted⟩

/-- A step that keeps the two counts, and the fields but for `cmd` and `result`. -/
theorem SendInv.moved (hi : SendInv created s batch pend inp free)
    {batch' pend' inp' free' : List β} (hn : TransportInv u.net batch' pend' inp')
    (hp : IsRing u.net.out.links .reservePool (nodes free'))
    (hidle : ∀ m, u.idle free' m = s.idle free m)
    (hused : ∀ m, u.used batch' pend' inp' m = s.used batch pend inp m)
    (hmem : ∀ m, u.net.out.mem m = {s.net.out.mem m with
      cmd := (u.net.out.mem m).cmd, result := (u.net.out.mem m).result})
    (hfresh : ∀ m, 0 < s.idle free m → u.net.out.mem m = s.net.out.mem m)
    (hreturned : ∀ m, u.returned.count m = u.completed.count m + u.net.back inp' m)
    (hsubmitted : ∀ m, (u.net.out.submitted.map Submission.block).count m =
      u.completed.count m + u.net.count batch' pend' inp' m) :
    SendInv created u batch' pend' inp' free' where
  net := hn
  pool := hp
  once := fun m => by
    rw [SendState.places, hidle, hused]
    exact hi.once m
  magic := fun m => by
    rw [hmem]
    exact hi.magic m
  extraData := fun m => by
    rw [hmem]
    exact hi.extraData m
  extraDataSize := fun m => by
    rw [hmem]
    exact hi.extraDataSize m
  fresh := fun m hm => by
    rw [hidle] at hm
    rw [hfresh m hm]
    exact hi.fresh m hm
  armed := fun m hm => by
    rw [hused] at hm
    rw [hmem]
    exact hi.armed m hm
  returned := hreturned
  submitted := hsubmitted

/-- A step that rewrites one block and leaves it idle and as created, or used and armed. -/
theorem SendInv.rewritten (hi : SendInv created s batch pend inp free)
    {batch' pend' inp' free' : List β} {m : β} {v : Mreqb}
    (hn : TransportInv u.net batch' pend' inp')
    (hp : IsRing u.net.out.links .reservePool (nodes free'))
    (hmem : u.net.out.mem = Function.update s.net.out.mem m v)
    (hplaces : ∀ c, u.places batch' pend' inp' free' c = s.places batch pend inp free c)
    (hidle : ∀ c, c ≠ m → u.idle free' c = s.idle free c)
    (hmagic : v.magic = mreqbMagic) (hdata : v.extraData = (created m).extraData)
    (hsize : v.extraDataSize = (created m).extraDataSize)
    (hm : (0 < u.idle free' m ∧ v = created m) ∨
      (0 < u.used batch' pend' inp' m ∧ v.complete = some .putMreqb))
    (hreturned : ∀ c, u.returned.count c = u.completed.count c + u.net.back inp' c)
    (hsubmitted : ∀ c, (u.net.out.submitted.map Submission.block).count c =
      u.completed.count c + u.net.count batch' pend' inp' c) :
    SendInv created u batch' pend' inp' free' := by
  have honce : ∀ c, u.idle free' c + u.used batch' pend' inp' c = 1 :=
    fun c => (hplaces c).trans (hi.once c)
  have hself : u.net.out.mem m = v := by rw [hmem, Function.update_self]
  have hother : ∀ {c}, c ≠ m → u.net.out.mem c = s.net.out.mem c := by
    intro c hc
    rw [hmem, Function.update_of_ne hc]
  have hkeep : ∀ {γ : Type} (f : Mreqb → γ) (g : β → γ), f v = g m →
      (∀ c, f (s.net.out.mem c) = g c) → ∀ c, f (u.net.out.mem c) = g c := by
    intro γ f g hv hf c
    by_cases hc : c = m
    · subst hc
      rw [hself]
      exact hv
    · rw [hother hc]
      exact hf c
  refine ⟨hn, hp, honce, hkeep Mreqb.magic (fun _ => mreqbMagic) hmagic hi.magic,
    hkeep Mreqb.extraData _ hdata hi.extraData, hkeep Mreqb.extraDataSize _ hsize hi.extraDataSize,
    fun c hc => ?_, fun c hc => ?_, hreturned, hsubmitted⟩
  · by_cases hcm : c = m
    · subst hcm
      have hone := honce c
      rcases hm with hm | hm
      · rw [hself]
        exact hm.2
      · omega
    · rw [hidle c hcm] at hc
      rw [hother hcm]
      exact hi.fresh c hc
  · by_cases hcm : c = m
    · subst hcm
      have hone := honce c
      rcases hm with hm | hm
      · omega
      · rw [hself]
        exact hm.2
    · have hone := honce c
      have hsum := hi.once c
      rw [hidle c hcm] at hone
      simp only [SendState.places] at hsum
      rw [hother hcm]
      exact hi.armed c (by omega)

/-! ### Where a block can be -/

theorem SendInv.off_of_idle (hi : SendInv created s batch pend inp free) {m : β}
    (hm : 0 < s.idle free m) : s.net.count batch pend inp m = 0 := by
  have hone := hi.once m
  simp only [SendState.places, SendState.used] at hone
  omega

theorem SendInv.busy (hi : SendInv created s batch pend inp free) {m : β}
    (hm : 0 < s.used batch pend inp m) : m ∉ free := by
  intro hin
  have hpos := List.count_pos_iff.mpr hin
  have hone := hi.once m
  simp only [SendState.places, SendState.idle] at hone
  omega

variable [DecidableEq T]

theorem setSender_idle (s : SendState β T) (t : T) (pc : SendPc β) (free : List β) (m : β) :
    (s.setSender t pc).idle free m + (s.sender t).taken.count m = s.idle free m + pc.taken.count m := by
  have hsum := sum_update_add s.sender (fun pc => pc.taken.count m) t pc
  simp only [SendState.idle, SendState.setSender]
  omega

theorem setSender_used (s : SendState β T) (t : T) (pc : SendPc β) (batch pend inp : List β) (m : β) :
    (s.setSender t pc).used batch pend inp m + (s.sender t).filled.count m =
      s.used batch pend inp m + pc.filled.count m := by
  have hsum := sum_update_add s.sender (fun pc => pc.filled.count m) t pc
  simp only [SendState.used, SendState.setSender]
  omega

omit [DecidableEq T] in
theorem idle_of_free {m : β} (hm : m ∈ free) : 0 < s.idle free m := by
  have hpos := List.count_pos_iff.mpr hm
  simp only [SendState.idle]
  omega

theorem idle_of_taken {t : T} {k : SendCall} {done : Nat} {m : β} (h : s.sender t = .fill k done m)
    (free : List β) : 0 < s.idle free m := by
  have hcount := setSender_idle s t .outside free m
  rw [h] at hcount
  simp only [SendPc.taken, List.count_singleton_self, List.count_nil] at hcount
  omega

theorem used_of_filled {t : T} {k : SendCall} {done : Nat} {m : β}
    (h : s.sender t = .submit k done m) (batch pend inp : List β) : 0 < s.used batch pend inp m := by
  have hcount := setSender_used s t .outside batch pend inp m
  rw [h] at hcount
  simp only [SendPc.filled, List.count_singleton_self, List.count_nil] at hcount
  omega

theorem SendInv.off_of_filled (hi : SendInv created s batch pend inp free) {t : T} {k : SendCall}
    {done : Nat} {m : β} (ht : s.sender t = .submit k done m) :
    s.net.count batch pend inp m = 0 := by
  have hcount := setSender_used s t .outside batch pend inp m
  have hone := hi.once m
  rw [ht] at hcount
  simp only [SendPc.filled, List.count_singleton_self, List.count_nil] at hcount
  simp only [SendState.places, SendState.used, SendState.setSender] at hone hcount
  omega

theorem SendInv.off_of_linking (hi : SendInv created s batch pend inp free) {t : T} {m : β}
    (ht : s.net.out.submitter t = .insert m) :
    s.net.count batch pend inp m = 0 ∧ 0 < s.used batch pend inp m := by
  have hcount := setSubmitter_linkCount s.net.out t .outside m
  have hone := hi.once m
  rw [ht] at hcount
  simp only [SubmitPc.hand, List.count_singleton_self, List.count_nil] at hcount
  simp only [SendState.places, SendState.used] at hone ⊢
  omega

/-! ### Steps of a sender -/

theorem SendInv.setSender (hi : SendInv created s batch pend inp free) {t : T} {pc : SendPc β}
    (ht : pc.taken = (s.sender t).taken) (hf : pc.filled = (s.sender t).filled) :
    SendInv created (s.setSender t pc) batch pend inp free := by
  refine hi.moved hi.net hi.pool (fun m => ?_) (fun m => ?_) (fun _ => rfl) (fun _ _ => rfl)
    hi.returned hi.submitted
  · have hcount := setSender_idle s t pc free m
    rw [ht] at hcount
    omega
  · have hcount := setSender_used s t pc batch pend inp m
    rw [hf] at hcount
    omega

theorem SendInv.return (hi : SendInv created s batch pend inp free) {t : T}
    (ht : (s.sender t).taken = []) (hf : (s.sender t).filled = []) (ret : Nat) :
    SendInv created (s.return t ret) batch pend inp free := by
  have hleft : SendInv created (s.setSender t .outside) batch pend inp free :=
    hi.setSender ht.symm hf.symm
  exact hleft.others _ _ _

theorem alloc_inv (hi : SendInv created s batch pend inp free) {t : T} {k : SendCall} {done : Nat}
    {m : β} {links : Links β} (ht : s.sender t = .alloc k done)
    (ha : mreqbReservepoolAlloc s.net.out.links = (some m, links)) :
    ∃ free', SendInv created {s.setSender t (.fill k done m) with
      net := {s.net with out := {s.net.out with links := links}}} batch pend inp free' := by
  rcases reservepoolAlloc_cases hi.pool with ⟨_, hnone⟩ | ⟨b, rest, rfl, hsome, hring⟩
  · rw [hnone] at ha
    cases ha
  · rw [hsome] at ha
    cases ha
    have hframe : ∀ x, x ∉ Node.reservePool :: nodes (m :: rest) →
        listDel s.net.out.links (.mreqb m) x = s.net.out.links x :=
      fun x hx => hi.pool.listDel_frame (by simp) hx
    have hnet := hi.net.relink (hframe _ (by simp)) (hframe _ (by simp)) (hframe _ (by simp))
      fun c hc => hframe (.mreqb c) (by
        have hused : 0 < s.used batch pend inp c := Nat.add_pos_right _ hc
        simpa using hi.busy hused)
    refine ⟨rest, hi.moved hnet hring (fun c => ?_) (fun c => ?_) (fun _ => rfl) (fun _ _ => rfl)
      hi.returned hi.submitted⟩
    · have hcount := setSender_idle s t (.fill k done m) rest c
      rw [ht] at hcount
      simp only [SendPc.taken, List.count_nil, List.count_singleton] at hcount
      show (s.setSender t (.fill k done m)).idle rest c = _
      simp only [SendState.idle, List.count_cons] at hcount ⊢
      omega
    · have hcount := setSender_used s t (.fill k done m) batch pend inp c
      rw [ht] at hcount
      exact hcount

theorem dataTransferRequest_fields {r v : Mreqb} {line len : Word}
    (h : dataTransferRequest r line len = some v) :
    v.magic = r.magic ∧ v.extraData = r.extraData ∧ v.extraDataSize = r.extraDataSize ∧
      v.complete = some .putMreqb := by
  have hpush : ∀ {m n : Mreqb} {arg : Word}, mreqbPushArg m arg = some n →
      n.magic = m.magic ∧ n.extraData = m.extraData ∧ n.extraDataSize = m.extraDataSize := by
    intro m n arg hm
    unfold mreqbPushArg at hm
    split at hm
    · cases hm
      exact ⟨rfl, rfl, rfl⟩
    · cases hm
  simp only [dataTransferRequest] at h
  split at h
  · rename_i hline
    split at h
    · rename_i hlen
      cases h
      have hfirst := hpush hline
      have hsecond := hpush hlen
      exact ⟨hsecond.1.trans hfirst.1, hsecond.2.1.trans hfirst.2.1,
        hsecond.2.2.trans hfirst.2.2, rfl⟩
    · cases h
  · cases h

theorem fill_inv (hi : SendInv created s batch pend inp free) {t : T} {k : SendCall} {done : Nat}
    {m : β} {v : Mreqb} {line len : Word} (ht : s.sender t = .fill k done m)
    (hv : dataTransferRequest (s.net.out.mem m) line len = some v) (bytes : List Byte) :
    SendInv created ((s.setSender t (.submit k done m)).write m v bytes) batch pend inp free := by
  have hoff := hi.off_of_idle (idle_of_taken ht free)
  obtain ⟨hmagic, hdata, hsize, hcomplete⟩ := dataTransferRequest_fields hv
  have hidle : ∀ c, (s.setSender t (.submit k done m)).idle free c + [m].count c = s.idle free c := by
    intro c
    have hcount := setSender_idle s t (.submit k done m) free c
    rw [ht] at hcount
    exact hcount
  have hused : ∀ c, (s.setSender t (.submit k done m)).used batch pend inp c =
      s.used batch pend inp c + [m].count c := by
    intro c
    have hcount := setSender_used s t (.submit k done m) batch pend inp c
    rw [ht] at hcount
    exact hcount
  refine hi.rewritten (m := m) (v := v) (hi.net.rewrite hoff v) hi.pool rfl (fun c => ?_)
    (fun c hc => ?_) (hmagic.trans (hi.magic m)) (hdata.trans (hi.extraData m))
    (hsize.trans (hi.extraDataSize m)) (.inr ⟨?_, hcomplete⟩) hi.returned hi.submitted
  · have hd := hidle c
    have he := hused c
    show (s.setSender t (.submit k done m)).idle free c +
      (s.setSender t (.submit k done m)).used batch pend inp c = _
    simp only [SendState.places]
    omega
  · have hd := hidle c
    rw [List.count_eq_zero_of_not_mem (by simpa using hc)] at hd
    exact hd
  · have he := hused m
    rw [List.count_singleton_self] at he
    show 0 < (s.setSender t (.submit k done m)).used batch pend inp m
    omega

/-! ### Steps of the protocol -/

theorem SendInv.pool_keeps (hi : SendInv created s batch pend inp free) {a : TransportAction β T}
    {net : Transport β T} (hb : ∀ m ∈ a.blocks s.net, m ∉ free)
    (hs : transportStep s.net a = some net) : IsRing net.out.links .reservePool (nodes free) := by
  have hoff : ∀ m ∈ free, s.net.count batch pend inp m = 0 :=
    fun m hm => hi.off_of_idle (idle_of_free hm)
  exact freeList_keeps hi.net hi.pool hoff hb hs

theorem submit_inv (hi : SendInv created s batch pend inp free) {t : T} {k : SendCall}
    {done len : Nat} {m : β} {net : Transport β T} (ht : s.sender t = .submit k done m)
    (hs : transportStep s.net (.out (.submit t m)) = some net) :
    ∃ batch' pend' inp', SendInv created
      {s.setSender t (.sending k done len) with net := net} batch' pend' inp' free := by
  have hb : ∀ c ∈ (TransportAction.out (.submit t m)).blocks s.net,
      s.net.count batch pend inp c = 0 ∧ c ∉ free := by
    intro c hc
    have hcm : c = m := by simpa [TransportAction.blocks, OutputAction.blocks] using hc
    subst hcm
    exact ⟨hi.off_of_filled ht, hi.busy (used_of_filled ht batch pend inp)⟩
  obtain ⟨batch', pend', inp', hn, hahead, hback⟩ :=
    transportStep_moves hi.net (fun c hc => (hb c hc).1) hs
  have hcount : ∀ c, net.count batch' pend' inp' c = s.net.count batch pend inp c := by
    intro c
    have ha : net.ahead batch' pend' c = s.net.ahead batch pend c := hahead c
    have hb : net.back inp' c = s.net.back inp c := hback c
    rw [Transport.count, Transport.count, ha, hb]
  refine ⟨batch', pend', inp', hi.moved hn (hi.pool_keeps (fun c hc => (hb c hc).2) hs)
    (fun c => ?_) (fun c => ?_) (fun c => ?_) (fun c _ => ?_) (fun c => ?_) fun c => ?_⟩
  · have hidle := setSender_idle s t (.sending k done len) free c
    rw [ht] at hidle
    exact hidle
  · have hfilled := setSender_used s t (.sending k done len) batch pend inp c
    have hlinking : net.out.linkCount c = s.net.out.linkCount c + [m].count c :=
      transportStep_linkCount hs c
    rw [ht] at hfilled
    have hc := hcount c
    simp only [SendPc.filled, List.count_nil, SendState.used, SendState.setSender] at hfilled ⊢
    omega
  · show net.out.mem c = {s.net.out.mem c with
      cmd := (net.out.mem c).cmd, result := (net.out.mem c).result}
    rw [transportStep_mem hs List.not_mem_nil]
  · exact transportStep_mem hs List.not_mem_nil
  · exact (hi.returned c).trans (congrArg _ (hback c).symm)
  · have hentered := transportStep_submitted hs c
    exact (hentered.trans (hi.submitted c)).trans (congrArg _ (hcount c).symm)

theorem net_inv (hi : SendInv created s batch pend inp free) {a : TransportAction β T}
    {net : Transport β T} (ha : a.byItself = true) (hok : WellBehaved s.net a)
    (hs : transportStep s.net a = some net) :
    ∃ batch' pend' inp', SendInv created
      {s with net := net, returned := s.returned ++ a.replied} batch' pend' inp' free := by
  have hb : ∀ c ∈ a.blocks s.net, s.net.count batch pend inp c = 0 ∧ c ∉ free := by
    intro c hc
    obtain ⟨t, _, ht⟩ := blocks_byItself ha hc
    exact ⟨(hi.off_of_linking ht).1, hi.busy (hi.off_of_linking ht).2⟩
  have hleft := left_byItself ha hi.magic
  have hstarted := started_byItself ha
  obtain ⟨batch', pend', inp', hn, hahead, hback⟩ :=
    transportStep_moves hi.net (fun c hc => (hb c hc).1) hs
  refine ⟨batch', pend', inp', hi.moved hn (hi.pool_keeps (fun c hc => (hb c hc).2) hs)
    (fun _ => rfl) (fun c => ?_) (fun c => transportStep_fields hs ha hok c) (fun c hc => ?_)
    (fun c => ?_) fun c => ?_⟩
  · have hc := hahead c
    have hd := hback c
    have hlinking := transportStep_linkCount hs c
    rw [hstarted, List.count_nil] at hlinking
    rw [hleft, List.count_nil] at hd
    simp only [SendState.used, Transport.count]
    omega
  · refine transportStep_mem hs fun hin => ?_
    obtain ⟨_, hpos⟩ := written_reply ha hs hin
    have hzero := hi.off_of_idle hc
    simp only [Transport.count, Transport.ahead] at hzero
    omega
  · have hd := hback c
    have hret := hi.returned c
    rw [hleft, List.count_nil] at hd
    show (s.returned ++ a.replied).count c = s.completed.count c + net.back inp' c
    rw [List.count_append]
    omega
  · have hc := hahead c
    have hd := hback c
    have hsub := hi.submitted c
    have hentered := transportStep_submitted hs c
    rw [hleft, List.count_nil] at hd
    show (net.out.submitted.map Submission.block).count c =
      s.completed.count c + net.count batch' pend' inp' c
    simp only [Transport.count] at hsub ⊢
    omega

omit [Fintype T] [DecidableEq T] in
/-- `put_mreqb` keeps the lists, but for the free list, of a block that is in none. -/
theorem putMreqb_net (hn : TransportInv s.net batch pend inp)
    (hp : IsRing s.net.out.links .reservePool (nodes free)) {m : β}
    (hoff : s.net.count batch pend inp m = 0) (hm : m ∉ free)
    (hbusy : ∀ c, 0 < s.net.count batch pend inp c → c ∉ free) :
    TransportInv (s.putMreqb m).net batch pend inp ∧
      IsRing (s.putMreqb m).net.out.links .reservePool (nodes (free ++ [m])) := by
  exact poolFree_lists hn hp hoff hm hbusy

/-- `put_mreqb` on a block a pool thread is done with. -/
theorem complete_inv {size : Word} {edata : β → Pointer}
    (hi : SendInv (fun m => mreqbWaitedAlloc size (edata m)) s batch pend inp free)
    {i : Fin maxConcurrentHandles} {m : β} {net : Transport β T} (hm : s.net.running i = some m)
    (hs : transportStep s.net (.pool (.process i)) = some net) :
    ∃ batch' pend' inp', SendInv (fun m => mreqbWaitedAlloc size (edata m))
      {({s with net := net}.putMreqb m) with completed := s.completed ++ [m]}
      batch' pend' inp' (free ++ [m]) := by
  obtain ⟨batch', pend', inp', hn, hahead, hback, hoff⟩ := process_moves hi.net hm hs
  have hcount : ∀ c, net.count batch' pend' inp' c + [m].count c = s.net.count batch pend inp c := by
    intro c
    have hc := hback c
    have hd := hahead c
    simp only [Transport.count]
    omega
  have hmem : net.out.mem = s.net.out.mem := by
    funext c
    exact transportStep_mem hs List.not_mem_nil
  have hpool := hi.pool_keeps (fun c hc => by cases hc) hs
  have hbusy : ∀ c, 0 < s.net.count batch pend inp c → c ∉ free :=
    fun c hc => hi.busy (Nat.add_pos_right _ hc)
  have hfree : m ∉ free := hbusy m (Nat.add_pos_right _ (running_count hm))
  obtain ⟨hput, hring⟩ := putMreqb_net (s := {s with net := net}) hn hpool hoff hfree fun c hc =>
    hbusy c (by
      have hc : 0 < net.count batch' pend' inp' c := hc
      have hd := hcount c
      omega)
  have hidle : ∀ c, ({s with net := net}.putMreqb m).idle (free ++ [m]) c =
      s.idle free c + [m].count c := by
    intro c
    show (free ++ [m]).count c + _ = _
    rw [List.count_append]
    simp only [SendState.idle, SendState.putMreqb]
    omega
  have hused : ∀ c, ({s with net := net}.putMreqb m).used batch' pend' inp' c + [m].count c =
      s.used batch pend inp c := by
    intro c
    have hd := hcount c
    have hlinking : net.out.linkCount c = s.net.out.linkCount c := transportStep_linkCount hs c
    show (∑ t, (s.sender t).filled.count c) + net.out.linkCount c +
      net.count batch' pend' inp' c + _ = _
    simp only [SendState.used]
    omega
  refine ⟨batch', pend', inp', hi.rewritten (m := m) (v := mreqbWaitedAlloc size (edata m))
    hput hring ?_ (fun c => ?_) (fun c hc => ?_) rfl rfl rfl (.inl ⟨?_, rfl⟩) (fun c => ?_)
    fun c => ?_⟩
  · show Function.update net.out.mem m (mreqbReinit (net.out.mem m)) = _
    rw [hmem, reinit_alloc _ size (edata m) (hi.extraData m) (hi.extraDataSize m)]
  · have hd := hidle c
    have he := hused c
    show ({s with net := net}.putMreqb m).idle (free ++ [m]) c +
      ({s with net := net}.putMreqb m).used batch' pend' inp' c = _
    simp only [SendState.places]
    omega
  · have hd := hidle c
    rw [List.count_eq_zero_of_not_mem (by simpa using hc)] at hd
    exact hd
  · have hd := hidle m
    rw [List.count_singleton_self] at hd
    show 0 < ({s with net := net}.putMreqb m).idle (free ++ [m]) m
    omega
  · have hd := hback c
    have hret := hi.returned c
    show s.returned.count c = (s.completed ++ [m]).count c + net.back inp' c
    rw [List.count_append]
    omega
  · have hd := hcount c
    have hsub := hi.submitted c
    have hentered : (net.out.submitted.map Submission.block).count c =
      (s.net.out.submitted.map Submission.block).count c := transportStep_submitted hs c
    show (net.out.submitted.map Submission.block).count c =
      (s.completed ++ [m]).count c + net.count batch' pend' inp' c
    rw [List.count_append]
    omega

/-! ### Every run -/

theorem sendStep_inv {size : Word} {edata : β → Pointer} {a : SendAction β T}
    (hi : ∃ batch pend inp free,
      SendInv (fun m => mreqbWaitedAlloc size (edata m)) s batch pend inp free)
    (ha : RemoteBehaves s a) (h : sendStep s a = some u) :
    ∃ batch pend inp free,
      SendInv (fun m => mreqbWaitedAlloc size (edata m)) u batch pend inp free := by
  obtain ⟨batch, pend, inp, free, hi⟩ := hi
  cases sendStep_cases h with
  | nothing ht => exact ⟨batch, pend, inp, free, hi.return (by rw [ht]; rfl) (by rw [ht]; rfl) 0⟩
  | send ht => exact ⟨batch, pend, inp, free, hi.setSender (by rw [ht]; rfl) (by rw [ht]; rfl)⟩
  | down ht _ => exact ⟨batch, pend, inp, free, hi.return (by rw [ht]; rfl) (by rw [ht]; rfl) 0⟩
  | up ht _ => exact ⟨batch, pend, inp, free, hi.setSender (by rw [ht]; rfl) (by rw [ht]; rfl)⟩
  | @lock t k ht _ =>
    have hlocked : SendInv _ (s.setSender t (.alloc k 0)) batch pend inp free :=
      hi.setSender (by rw [ht]; rfl) (by rw [ht]; rfl)
    exact ⟨batch, pend, inp, free, hlocked.others _ _ _⟩
  | alloc ht halloc =>
    obtain ⟨free', hu⟩ := alloc_inv hi ht halloc
    exact ⟨batch, pend, inp, free', hu⟩
  | leave ht _ => exact ⟨batch, pend, inp, free, hi.setSender (by rw [ht]; rfl) (by rw [ht]; rfl)⟩
  | fill ht _ hv => exact ⟨batch, pend, inp, free, fill_inv hi ht hv _⟩
  | submit ht hs =>
    obtain ⟨batch', pend', inp', hu⟩ := submit_inv hi ht hs
    exact ⟨batch', pend', inp', free, hu⟩
  | sent ht _ => exact ⟨batch, pend, inp, free, hi.setSender (by rw [ht]; rfl) (by rw [ht]; rfl)⟩
  | @unlock t k done ht =>
    have hleft := hi.return (by rw [ht]; rfl) (by rw [ht]; rfl) done
    exact ⟨batch, pend, inp, free, hleft.others _ _ _⟩
  | portStatus => exact ⟨batch, pend, inp, free, hi.others _ _ _⟩
  | remoteBytes => exact ⟨batch, pend, inp, free, hi.others _ _ _⟩
  | @skip i m net hm hnone hs =>
    have hpos : 0 < s.net.back inp m := running_count hm
    have hused : 0 < s.used batch pend inp m := by
      simp only [SendState.used, Transport.count]
      omega
    rw [hi.armed m hused] at hnone
    cases hnone
  | complete hm _ hs =>
    obtain ⟨batch', pend', inp', hu⟩ := complete_inv hi hm hs
    exact ⟨batch', pend', inp', _, hu⟩
  | net hself hs =>
    obtain ⟨batch', pend', inp', hu⟩ := net_inv hi hself ha hs
    exact ⟨batch', pend', inp', free, hu⟩

omit [DecidableEq T] in
theorem sendStart_inv (n : Nat) (size : Word) (edata : Fin n → Pointer) (links : Links (Fin n))
    (bytes : Fin n → List Byte) (port : Fin maxMbserialNum → Word) :
    SendInv (fun m => mreqbWaitedAlloc size (edata m))
      (sendStart n size edata links bytes port : SendState (Fin n) T) [] [] [] (List.finRange n) := by
  have hframe : ∀ x, x ≠ .reservePool → (∀ m, x ≠ .mreqb m) →
      mreqbReservepoolCreate (transportStart (T := T) links fun m =>
        mreqbWaitedAlloc size (edata m)).out.links (List.finRange n) x = _ :=
    fun x hx hm => reservepoolCreate_frame (List.nodup_finRange n) hx fun m _ => hm m
  have hidle : ∀ m, (sendStart n size edata links bytes port : SendState (Fin n) T).idle
      (List.finRange n) m = 1 := by
    intro m
    have hone := List.count_eq_one_of_mem (List.nodup_finRange n) (List.mem_finRange m)
    simp [SendState.idle, sendStart, SendPc.taken, hone]
  have hzero : ∀ m, (sendStart n size edata links bytes port : SendState (Fin n) T).net.count
      [] [] [] m = 0 :=
    fun m => transportStart_count (T := T) links (fun m => mreqbWaitedAlloc size (edata m)) m
  have hused : ∀ m, (sendStart n size edata links bytes port : SendState (Fin n) T).used
      [] [] [] m = 0 := by
    intro m
    rw [SendState.used, hzero]
    simp [sendStart, transportStart, outputStart, OutputState.linkCount, SendPc.filled, SubmitPc.hand]
  refine ⟨(transportStart_inv links _).relink (hframe _ (by simp) (by simp))
    (hframe _ (by simp) (by simp)) (hframe _ (by simp) (by simp)) fun m hm => ?_,
    reservepoolCreate_ring (List.nodup_finRange n), fun m => ?_, fun _ => rfl, fun _ => rfl,
    fun _ => rfl, fun _ _ => rfl, fun m hm => ?_, fun m => ?_, fun m => ?_⟩
  · rw [transportStart_count] at hm
    cases hm
  · rw [SendState.places, hidle, hused]
  · rw [hused] at hm
    cases hm
  · have hm := hzero m
    rw [Transport.count] at hm
    exact (Nat.eq_zero_of_add_eq_zero_left hm).symm
  · exact (hzero m).symm

/-- **Ownership of the pool's blocks**, in every state reached with a remote that
behaves: the links are those of the lists, every block is in exactly one place, and a
pool thread runs a completion only after the remote has returned the block as often
as it was submitted, once each time. What the pool gives out is as it was allocated,
and has room for a sender's arguments. -/
theorem block_ownership {n : Nat} {size : Word} {edata : Fin n → Pointer} {links : Links (Fin n)}
    {bytes : Fin n → List Byte} {port : Fin maxMbserialNum → Word} {s : SendState (Fin n) T}
    (h : (serialSend n size edata links bytes port).ReachableUnder RemoteBehaves s) :
    (∃ batch pend inp free, TransportInv s.net batch pend inp ∧
      IsRing s.net.out.links .reservePool (nodes free) ∧ ∀ m, s.places batch pend inp free m = 1) ∧
    (∀ m, s.completed.count m ≤ s.returned.count m ∧
      s.returned.count m ≤ (s.net.out.submitted.map Submission.block).count m ∧
      (s.net.out.submitted.map Submission.block).count m ≤ s.completed.count m + 1) ∧
    (∀ i m, s.net.running i = some m → s.returned.count m = s.completed.count m + 1) ∧
    ∀ m links', mreqbReservepoolAlloc s.net.out.links = (some m, links') →
      (s.net.out.mem m).magic = mreqbMagic ∧ (s.net.out.mem m).cmd = 0 ∧
      (s.net.out.mem m).argc = 0 ∧ (s.net.out.mem m).cacheUpdate.num = 0 ∧
      (s.net.out.mem m).complete = none ∧
      (s.net.out.mem m).extraData = (mreqbWaitedAlloc size (edata m)).extraData ∧
      (s.net.out.mem m).extraDataSize = (mreqbWaitedAlloc size (edata m)).extraDataSize ∧
      ∀ line len, dataTransferRequest (s.net.out.mem m) line len ≠ none := by
  have hinv := h.invariant (I := fun s => ∃ batch pend inp free,
    SendInv (fun m => mreqbWaitedAlloc size (edata m)) s batch pend inp free)
    ⟨_, _, _, _, sendStart_inv n size edata links bytes port⟩ sendStep_inv
  obtain ⟨batch, pend, inp, free, hi⟩ := hinv
  refine ⟨⟨batch, pend, inp, free, hi.net, hi.pool, hi.once⟩, fun m => ?_, fun i m hm => ?_,
    fun m links' hm => ?_⟩
  · have hret := hi.returned m
    have hsub := hi.submitted m
    have hone := hi.net.once m
    simp only [Transport.count] at hsub hone
    omega
  · have hret := hi.returned m
    have hone := hi.net.once m
    have hpos : 0 < s.net.back inp m := running_count hm
    simp only [Transport.count] at hone
    omega
  · have hfree : m ∈ free := by
      rcases reservepoolAlloc_cases hi.pool with ⟨_, hnone⟩ | ⟨k, rest, rfl, hsome, _⟩
      · rw [hnone] at hm
        cases hm
      · rw [hsome] at hm
        cases hm
        exact List.mem_cons_self
    rw [hi.fresh m (idle_of_free hfree)]
    exact ⟨rfl, rfl, rfl, rfl, rfl, rfl, rfl, fun _ _ => Option.some_ne_none _⟩

/-- One byte is sent in block 0, which goes to the remote, is returned and completed. -/
def oneByteSent : List (SendAction (Fin 1) (Fin 1)) :=
  [.send 0 0 (some [7]), .status 0, .lock 0, .alloc 0, .fill 0, .submit 0, .net (.out (.insert 0)),
   .net (.out (.setbits 0)), .sent 0, .net (.out .take), .net (.out .clean), .net (.out .clean),
   .net (.out .detach), .net (.out .unlink), .net (.out (.put true)),
   .net (.reply 0 {(dataTransferRequest (mreqbWaitedAlloc 512 (some 0)) 0 1).getD Mreqb.zero with
      cmd := cSerialRequest ||| responseBit} ⟨.tempHead, .tempHead⟩),
   .net .input, .net (.pool .readRunning), .net (.pool .claim), .net (.pool .post),
   .net (.pool (.wake 0)), .complete 0]

theorem block_ownership_one :
    ∃ s : SendState (Fin 1) (Fin 1), s.completed = [0] ∧ (s.net.out.mem 0).argc = 0 ∧
      ∃ batch pend inp free, s.places batch pend inp free 0 = 1 := by
  obtain ⟨s, hs, hcompleted, hfree⟩ := Lts.exists_reachableUnder
    (L := serialSend (T := Fin 1) 1 512 (fun _ => some 0) (fun x => ⟨x, x⟩) (fun _ => []) fun _ => 1)
    (P := fun s => s.completed = [0] ∧ (mreqbReservepoolAlloc s.net.out.links).1 = some 0)
    RemoteBehaves oneByteSent (by decide)
  obtain ⟨⟨batch, pend, inp, free, _, _, hone⟩, _, _, hrecycled⟩ := block_ownership hs
  obtain ⟨_, _, hargc, _⟩ := hrecycled 0 (mreqbReservepoolAlloc s.net.out.links).2 (by rw [← hfree])
  exact ⟨s, hcompleted, hargc, batch, pend, inp, free, hone 0⟩

end

end Mflib.Serial
