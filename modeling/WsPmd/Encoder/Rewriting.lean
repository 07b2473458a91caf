import WsPmd.Encoder.Steps

/-!
# What a host does to a candidate's bytes

A guard lends out the bytes of its candidate to be changed in place, which is how a client
masks them. The compressor is done with them by then, so a run in which candidates were
rewritten is a run in which none was, told with other bytes: what was rewritten is what was
committed, and nothing else of it differs.
-/

namespace WsPmd.Encoding

open Grammar (Bytes)
open Library

/-- What a host can do to a slice: any change that leaves its length. -/
structure Rewrite where
  apply : Bytes → Bytes
  length_apply : ∀ bytes, (apply bytes).length = bytes.length

namespace Rewrite

def none : Rewrite := ⟨fun bytes => bytes, fun _ => rfl⟩

/-- One change behind another. -/
def after (second first : Rewrite) : Rewrite where
  apply := fun bytes => second.apply (first.apply bytes)
  length_apply := fun bytes => (second.length_apply _).trans (first.length_apply bytes)

end Rewrite

/-- What a host does between two points of a run: it makes a call, or it changes the bytes
of the candidate at hand. -/
inductive Touch where
  | call (action : Action)
  | asBytesMut (rewrite : Rewrite)

def Touch.action : Touch → Option Action
  | .call action => some action
  | .asBytesMut _ => none

/-- What is committed of a candidate that was rewritten. -/
def Reply.rewritten (rewrite : Rewrite) : Reply → Reply
  | .fragment bytes => .fragment (rewrite.apply bytes)
  | .message bytes => .message (rewrite.apply bytes)
  | reply => reply

section Touching

variable {σ : Type}

/-- The bytes of the candidate at hand, if there is one. -/
def World.asBytes : World σ → Option Bytes
  | .prepared guard => some guard.bytes
  | .nonFinal fragment => some fragment.bytes
  | .final fragment => some fragment.bytes
  | _ => none

def World.rewritten (rewrite : Rewrite) : World σ → World σ
  | .prepared guard => .prepared { guard with bytes := rewrite.apply guard.bytes }
  | .nonFinal fragment => .nonFinal { fragment with bytes := rewrite.apply fragment.bytes }
  | .final fragment => .final { fragment with bytes := rewrite.apply fragment.bytes }
  | world => world

variable (C : Compress σ) (A : Allocator)

def touch (world : World σ) : Touch → Option (List (Action × Reply) × World σ)
  | .call action => (step C A world action).map fun answer => ([(action, answer.1)], answer.2)
  | .asBytesMut rewrite => world.asBytes.map fun _ => ([], world.rewritten rewrite)

/-- A run in which candidates are rewritten, with what the host called and what it got. -/
def touchAll (world : World σ) : List Touch → Option (List (Action × Reply) × World σ)
  | [] => some ([], world)
  | first :: touches => do
    let (events, world) ← touch C A world first
    let (more, world) ← touchAll world touches
    some (events ++ more, world)

end Touching

/-- What was done to the candidate at hand, when this was done to it before. -/
def pending (rewrite : Rewrite) : List Touch → Rewrite
  | [] => rewrite
  | .call _ :: touches => pending .none touches
  | .asBytesMut second :: touches => pending (second.after rewrite) touches

/-- The events of a run, told as they are where candidates are rewritten. -/
def retold (rewrite : Rewrite) : List Touch → List (Action × Reply) → List (Action × Reply)
  | .asBytesMut second :: touches, events => retold (second.after rewrite) touches events
  | .call _ :: touches, event :: events =>
    (event.1, event.2.rewritten rewrite) :: retold .none touches events
  | _, _ => []

section Erasure

variable {σ : Type} {C : Compress σ} {A : Allocator}

theorem rewritten_none (world : World σ) : world.rewritten .none = world := by
  cases world <;> rfl

theorem rewritten_after (second first : Rewrite) (world : World σ) :
    (world.rewritten first).rewritten second = world.rewritten (second.after first) := by
  cases world <;> rfl

/-- **A call on a candidate that was rewritten** is the call on the one that was not: the
bytes it commits are rewritten, and what it leaves is the same. -/
theorem step_rewritten (rewrite : Rewrite) (world : World σ) (action : Action) :
    step C A (world.rewritten rewrite) action =
      (step C A world action).map fun answer => (answer.1.rewritten rewrite, answer.2) := by
  cases world with
  | idle encoder =>
    cases action with
    | prepareMessage payload =>
      simp only [World.rewritten, step]
      split <;> rfl
    | beginStreamingMessage =>
      simp only [World.rewritten, step]
      split <;> rfl
    | _ => rfl
  | streaming stream =>
    cases action with
    | prepareNonFinalFragment payload =>
      simp only [World.rewritten, step]
      split <;> rfl
    | prepareFinalFragment payload =>
      simp only [World.rewritten, step]
      split <;> rfl
    | _ => rfl
  | prepared guard => cases action <;> rfl
  | nonFinal fragment => cases action <;> rfl
  | final fragment => cases action <;> rfl

/-- A run in which candidates are rewritten, from one that was already. -/
theorem touchAll_retold (touches : List Touch) :
    ∀ {rewrite : Rewrite} {world last : World σ} {events : List (Action × Reply)},
      touchAll C A (world.rewritten rewrite) touches = some (events, last) →
      ∃ plain last', run C A world (touches.filterMap Touch.action) = some (plain, last') ∧
        events = retold rewrite touches plain ∧
        last = last'.rewritten (pending rewrite touches) := by
  induction touches with
  | nil =>
    intro rewrite world last events h
    obtain ⟨rfl, rfl⟩ := Prod.mk.inj (Option.some.inj h)
    exact ⟨[], world, rfl, rfl, rfl⟩
  | cons first touches ih =>
    intro rewrite world last events h
    simp only [touchAll, Option.bind_eq_bind, Option.bind_eq_some_iff] at h
    obtain ⟨⟨seen, mid⟩, hfirst, ⟨more, final⟩, hmore, he⟩ := h
    obtain ⟨rfl, rfl⟩ := Prod.mk.inj (Option.some.inj he)
    cases first with
    | call action =>
      rw [touch, step_rewritten, Option.map_map] at hfirst
      obtain ⟨⟨reply, next⟩, hstep, hseen⟩ := Option.map_eq_some_iff.mp hfirst
      obtain ⟨rfl, rfl⟩ := Prod.mk.inj hseen
      rw [← rewritten_none next] at hmore
      obtain ⟨plain, last', hrun, rfl, rfl⟩ := ih hmore
      refine ⟨(action, reply) :: plain, last', ?_, rfl, rfl⟩
      simp only [List.filterMap_cons, Touch.action, run, hstep, hrun, Option.bind_eq_bind,
        Option.bind_some]
    | asBytesMut second =>
      obtain ⟨bytes, -, hseen⟩ := Option.map_eq_some_iff.mp hfirst
      obtain ⟨rfl, rfl⟩ := Prod.mk.inj hseen
      rw [rewritten_after] at hmore
      obtain ⟨plain, last', hrun, rfl, rfl⟩ := ih hmore
      exact ⟨plain, last', hrun, rfl, rfl⟩

/-! ## Masking -/

/-- What a client does: it masks each candidate right before it commits it. -/
def masked (mask : Rewrite) : List Action → List Touch
  | [] => []
  | .commit :: actions => .asBytesMut mask :: .call .commit :: masked mask actions
  | action :: actions => .call action :: masked mask actions

/-- Only a commit gives bytes out. -/
theorem reply_rewritten {world next : World σ} {action : Action} {reply : Reply}
    (h : step C A world action = some (reply, next)) (hother : action ≠ .commit)
    (rewrite : Rewrite) : reply.rewritten rewrite = reply := by
  cases stepped_of_step h with
  | commitMessage => exact absurd rfl hother
  | commitNonFinal => exact absurd rfl hother
  | commitFinal => exact absurd rfl hother
  | _ => rfl

/-- Where there is something to commit, its bytes are there to be masked. -/
theorem asBytes_of_commit {world : World σ} {answer : Reply × World σ}
    (h : step C A world .commit = some answer) : ∃ bytes, world.asBytes = some bytes := by
  cases world with
  | idle encoder => cases h
  | streaming stream => cases h
  | prepared guard => exact ⟨_, rfl⟩
  | nonFinal fragment => exact ⟨_, rfl⟩
  | final fragment => exact ⟨_, rfl⟩

/-- **A masked run is the plain one, masked.** -/
theorem touchAll_masked (mask : Rewrite) (actions : List Action) :
    ∀ {world last : World σ} {plain : List (Action × Reply)},
      run C A world actions = some (plain, last) →
      touchAll C A world (masked mask actions) =
        some (plain.map fun event => (event.1, event.2.rewritten mask), last) := by
  induction actions with
  | nil =>
    intro world last plain h
    obtain ⟨rfl, rfl⟩ := Prod.mk.inj (Option.some.inj h)
    rfl
  | cons action actions ih =>
    intro world last plain h
    simp only [run, Option.bind_eq_bind, Option.bind_eq_some_iff] at h
    obtain ⟨⟨reply, next⟩, hstep, ⟨more, final⟩, hmore, he⟩ := h
    obtain ⟨rfl, rfl⟩ := Prod.mk.inj (Option.some.inj he)
    have hrest := ih hmore
    have hplain (hother : action ≠ .commit) :
        touchAll C A world (.call action :: masked mask actions) =
          some (((action, reply) :: more).map fun event =>
            (event.1, event.2.rewritten mask), final) := by
      simp only [touchAll, touch, hstep, hrest, Option.map_some, Option.bind_eq_bind,
        Option.bind_some, List.map_cons, reply_rewritten hstep hother, List.singleton_append]
    cases action with
    | commit =>
      obtain ⟨bytes, hbytes⟩ := asBytes_of_commit hstep
      simp only [masked, touchAll, touch, hbytes, step_rewritten, hstep, hrest, Option.map_some,
        Option.bind_eq_bind, Option.bind_some, List.nil_append, List.map_cons,
        List.singleton_append]
    | _ =>
      apply hplain
      intro h
      cases h

theorem reply_undone {mask undo : Rewrite}
    (h : ∀ bytes, undo.apply (mask.apply bytes) = bytes) (reply : Reply) :
    (reply.rewritten mask).rewritten undo = reply := by
  cases reply with
  | fragment bytes => exact congrArg Reply.fragment (h bytes)
  | message bytes => exact congrArg Reply.message (h bytes)
  | _ => rfl

/-- **What a host does to a candidate's bytes stays outside the compressor.** Let a host
rewrite its candidates between any two calls of any run. It is answered as in the run of the
same calls in which it does not, but for the bytes it commits, which are those it made of
them; and it is left with the same encoder or guard. So where each candidate is masked
before it is committed, whoever takes the mask off reads the run without. -/
theorem rewriting_stays_outside (C : Compress σ) (A : Allocator) (encoder : Encoder σ) :
    (∀ touches events last, touchAll C A (.idle encoder) touches = some (events, last) →
      ∃ plain last', run C A (.idle encoder) (touches.filterMap Touch.action) =
          some (plain, last') ∧
        events = retold .none touches plain ∧
        last = last'.rewritten (pending .none touches)) ∧
    ∀ mask undo : Rewrite, (∀ bytes, undo.apply (mask.apply bytes) = bytes) →
      ∀ actions plain last, run C A (.idle encoder) actions = some (plain, last) →
        ∃ events, touchAll C A (.idle encoder) (masked mask actions) = some (events, last) ∧
          events.map (fun event => (event.1, event.2.rewritten undo)) = plain := by
  refine ⟨fun touches events last h => touchAll_retold touches h,
    fun mask undo hundo actions plain last hrun => ⟨_, touchAll_masked mask actions hrun, ?_⟩⟩
  rw [List.map_map]
  refine (List.map_congr_left fun event _ => ?_).trans (List.map_id plain)
  exact Prod.ext rfl (reply_undone hundo event.2)

/-- The exclusive or with one octet, which undoes itself. -/
def xorMask (key : UInt8) : Rewrite := ⟨List.map (· ^^^ key), fun _ => List.length_map _⟩

theorem xorMask_undoes (key : UInt8) (bytes : Bytes) :
    (xorMask key).apply ((xorMask key).apply bytes) = bytes := by
  simp only [xorMask, List.map_map]
  refine (List.map_congr_left fun byte _ => ?_).trans (List.map_id bytes)
  simp only [Function.comp_apply, UInt8.xor_assoc, UInt8.xor_self, UInt8.xor_zero, id_eq]

/-- A message of one byte that is masked before it is committed. -/
theorem rewriting_stays_outside_masked :
    ∃ events, touchAll storedCompress exactAllocator (.idle ⟨some ⟨[], [], 0, 0⟩, false⟩)
        [.call (.prepareMessage [0x61]), .asBytesMut (xorMask 0xff), .call .commit] =
          some (events, .idle ⟨some ⟨[], [], 1, 11⟩, false⟩) ∧
      events.map (fun event => (event.1, event.2.rewritten (xorMask 0xff))) =
        [(.prepareMessage [0x61], .guard),
          (.commit, .message [0x00, 0x01, 0x00, 0xfe, 0xff, 0x61, 0x00])] := by
  exact (rewriting_stays_outside storedCompress exactAllocator
    ⟨some ⟨[], [], 0, 0⟩, false⟩).2 (xorMask 0xff) (xorMask 0xff) (xorMask_undoes 0xff) _ _ _
    stored_sends

end Erasure

end WsPmd.Encoding
