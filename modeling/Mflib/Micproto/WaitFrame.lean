import Mflib.Micproto.SubmitWaitProofs

/-! What a step of a blocking call leaves alone.

Blocks that no call has and that are not on the way belong to whoever calls
`mreqb_submit_and_wait`: a step leaves their fields and links as they are, and the
caller may change them (`WaitInv.relink`, `WaitInv.rewrite`). -/
namespace Mflib.Micproto
open Circular

section
variable {β : Type} {n : Nat}

def CallPc.timeout : CallPc β → Word
  | .bind _ timeout => timeout
  | .submit _ timeout => timeout
  | .sending _ timeout => timeout
  | .wait _ timeout => timeout
  | _ => 0

variable [DecidableEq β] {s u : WaitState β n} {batch pend inp : List β} {etimedout : Word}
  {a : WaitAction β n}

/-! ### What the caller may change -/

theorem WaitInv.relink (hi : WaitInv s batch pend inp) {links : Links β}
    (ho : links .outputPending = s.net.out.links .outputPending)
    (ht : links .tempHead = s.net.out.links .tempHead)
    (hp : links .inputPending = s.net.out.links .inputPending)
    (hc : ∀ m, 0 < s.net.count batch pend inp m → links (.mreqb m) = s.net.out.links (.mreqb m)) :
    WaitInv {s with net := {s.net with out := {s.net.out with links := links}}} batch pend inp :=
  hi.setNet (hi.net.relink ho ht hp hc) (fun _ => .inl (Nat.le_refl _)) (fun _ _ _ => rfl)
    (fun _ _ h => .inl h) fun _ _ _ _ h => h

/-- The fields of a block that is not on the way, and that no call has bound. -/
theorem WaitInv.rewrite (hi : WaitInv s batch pend inp) {m : β}
    (hm : s.net.count batch pend inp m = 0) (hbound : ∀ c, (s.call c).bound ≠ some m) (v : Mreqb) :
    WaitInv {s with net := {s.net with out := {s.net.out with
      mem := Function.update s.net.out.mem m v}}} batch pend inp := by
  refine hi.setNet (hi.net.rewrite hm v) (fun _ => .inl (Nat.le_refl _)) (fun c k hk => ?_)
    (fun _ _ h => .inl h) fun _ _ _ _ h => h
  have hkm : k ≠ m := by
    intro he
    subst he
    exact hbound c hk
  have hkeep : Function.update s.net.out.mem m v k = s.net.out.mem k := Function.update_of_ne hkm _ _
  exact target_congr (congrArg Mreqb.complete hkeep) (congrArg Mreqb.context hkeep)

/-- A call that has returned leaves its thread free for another. -/
theorem WaitInv.leave (hi : WaitInv s batch pend inp) {c : Fin n} {ret : Word}
    (hc : s.call c = .returned ret) : WaitInv (s.setCall c .outside) batch pend inp := by
  refine hi.setCall (fun m hm => ?_) (fun m hm => ?_) (fun m hm => ?_) (fun m hm => ?_)
    (fun m timeout hm => ?_) fun m hm => ?_
  · cases hm
  · cases hm
  · rw [hc] at hm
    cases hm
  · cases hm
  · cases hm
  · cases hm

/-! ### Where a call is after a step -/

/-- Within a wait a step gives no call a block, starts none and leaves none. -/
theorem waitStep_call (h : waitStep etimedout s a = some u) (ha : ∀ c m timeout, a ≠ .call c m timeout)
    (c : Fin n) : (∀ m, (u.call c).mreqb = some m → (s.call c).mreqb = some m) ∧
      (u.call c = .outside ↔ s.call c = .outside) ∧
      ((s.call c).timeout = 0 → (u.call c).timeout = 0) := by
  have hmove : ∀ {d : Fin n} {pc : CallPc β}, u.call = Function.update s.call d pc →
      (∀ m, pc.mreqb = some m → (s.call d).mreqb = some m) → pc ≠ .outside →
      s.call d ≠ .outside → ((s.call d).timeout = 0 → pc.timeout = 0) →
      (∀ m, (u.call c).mreqb = some m → (s.call c).mreqb = some m) ∧
        (u.call c = .outside ↔ s.call c = .outside) ∧
        ((s.call c).timeout = 0 → (u.call c).timeout = 0) := by
    intro d pc hcall hmreqb hpc hold htimeout
    rw [hcall]
    by_cases hcd : c = d
    · subst hcd
      rw [Function.update_self]
      exact ⟨hmreqb, ⟨fun he => absurd he hpc, fun he => absurd he hold⟩, htimeout⟩
    · rw [Function.update_of_ne hcd]
      exact ⟨fun _ hm => hm, Iff.rfl, fun ht => ht⟩
  cases waitStep_cases h with
  | call => exact absurd rfl (ha _ _ _)
  | bind hd | submit hd | sent hd =>
    refine hmove rfl (fun m hm => ?_) (by simp) (by simp [hd]) fun ht => ?_
    · rw [hd]
      exact hm
    · rw [hd] at ht
      exact ht
  | wake hd =>
    refine hmove rfl (fun m hm => ?_) (by simp) (by simp [hd]) fun _ => rfl
    rw [hd]
    exact hm
  | expire hd | ret hd =>
    exact hmove rfl (fun m hm => by cases hm) (by simp) (by simp [hd]) fun _ => rfl
  | net | skip | writeStatus | setDone => exact ⟨fun _ hm => hm, Iff.rfl, fun ht => ht⟩

/-- A wait without a timeout does not expire. -/
theorem noExpiry_of_timeout (h : waitStep etimedout s a = some u) (hzero : ∀ c, (s.call c).timeout = 0) :
    NoExpiry a := by
  cases waitStep_cases h with
  | @expire c m timeout hc hne =>
    have htimeout := hzero c
    rw [hc] at htimeout
    exact absurd htimeout hne
  | call | bind | submit | sent | wake | ret | net | skip | writeStatus | setDone => trivial

/-! ### Fields, links and the mailbox after a step -/

/-- A block that no call has and that is not on the way keeps its fields. -/
theorem waitStep_mem (h : waitStep etimedout s a = some u) {m : β}
    (hm : ∀ c, (s.call c).mreqb ≠ some m) (hoff : s.net.count batch pend inp m = 0) :
    u.net.out.mem m = s.net.out.mem m := by
  cases waitStep_cases h with
  | call | sent | wake | expire | ret | writeStatus => rfl
  | @bind c k timeout net hc hs =>
    refine transportStep_mem hs fun hin => hm c ?_
    have hmk : m = k := by simpa [TransportAction.written, OutputAction.written] using hin
    rw [hc, hmk]
    rfl
  | submit _ hs | skip _ _ hs | setDone _ hs => exact transportStep_mem hs List.not_mem_nil
  | net hself hs =>
    refine transportStep_mem hs fun hin => ?_
    obtain ⟨_, hremote⟩ := written_reply hself hs hin
    simp only [Transport.count, Transport.ahead] at hoff
    omega

/-- A step writes only `cmd`, `result`, `complete` and `context`. -/
theorem waitStep_fields (h : waitStep etimedout s a = some u) (hok : Sensible s a) (m : β) :
    u.net.out.mem m = {s.net.out.mem m with
      cmd := (u.net.out.mem m).cmd
      result := (u.net.out.mem m).result
      complete := (u.net.out.mem m).complete
      context := (u.net.out.mem m).context} := by
  have hkeep : u.net.out.mem m = s.net.out.mem m → u.net.out.mem m = {s.net.out.mem m with
      cmd := (u.net.out.mem m).cmd
      result := (u.net.out.mem m).result
      complete := (u.net.out.mem m).complete
      context := (u.net.out.mem m).context} := by
    intro hsame
    rw [hsame]
  cases waitStep_cases h with
  | call | sent | wake | expire | ret | writeStatus => rfl
  | @bind c k timeout net hc hs =>
    by_cases hmk : m = k
    · subst hmk
      have hmem : net.out.mem m = bindContext (s.net.out.mem m) c := by
        cases transportStep_cases hs with
        | out hout =>
          cases outputStep_cases hout with
          | own => exact Function.update_self _ _ _
      show net.out.mem m = {s.net.out.mem m with
        cmd := (net.out.mem m).cmd
        result := (net.out.mem m).result
        complete := (net.out.mem m).complete
        context := (net.out.mem m).context}
      rw [hmem]
      rfl
    · exact hkeep (transportStep_mem hs
        (by simpa [TransportAction.written, OutputAction.written] using hmk))
  | submit _ hs | skip _ _ hs | setDone _ hs => exact hkeep (transportStep_mem hs List.not_mem_nil)
  | @net a net hself hs =>
    have hfields := transportStep_fields hs hself hok m
    show net.out.mem m = {s.net.out.mem m with
      cmd := (net.out.mem m).cmd
      result := (net.out.mem m).result
      complete := (net.out.mem m).complete
      context := (net.out.mem m).context}
    rw [hfields]

/-- Links away from the lists of the way and from its blocks stay. -/
theorem waitStep_frame (hi : WaitInv s batch pend inp) (h : waitStep etimedout s a = some u)
    {x : Node β} (ho : x ≠ .outputPending) (ht : x ≠ .tempHead) (hp : x ≠ .inputPending)
    (hx : ∀ m, x = .mreqb m → s.net.count batch pend inp m = 0 ∧ ∀ c, (s.call c).mreqb ≠ some m) :
    u.net.out.links x = s.net.out.links x := by
  have hframe : ∀ {b : TransportAction β (Fin n)} {net : Transport β (Fin n)},
      transportStep s.net b = some net →
      (∀ m ∈ b.blocks s.net, ∃ c, (s.call c).mreqb = some m) →
      net.out.links x = s.net.out.links x := by
    intro b net hs hb
    refine transportStep_frame hi.net hs ho ht hp fun m hm => ⟨(hx m hm).1, fun hin => ?_⟩
    obtain ⟨c, hc⟩ := hb m hin
    exact (hx m hm).2 c hc
  cases waitStep_cases h with
  | call | sent | wake | expire | ret | writeStatus => rfl
  | @bind c k timeout net hc hs | @submit c k timeout net hc hs =>
    refine hframe hs fun m hm => ⟨c, ?_⟩
    have hmk : m = k := by simpa [TransportAction.blocks, OutputAction.blocks] using hm
    rw [hc, hmk]
    rfl
  | skip _ _ hs | setDone _ hs => exact hframe hs fun m hm => by cases hm
  | net hself hs =>
    refine hframe hs fun m hm => ?_
    obtain ⟨t, rfl, ht⟩ := blocks_byItself hself hm
    exact ⟨t, CallPc.mreqb_of_sent (hi.linking t m ht).1⟩

end

end Mflib.Micproto
