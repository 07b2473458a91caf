import WsPmd.Decoder.Verdict
import WsPmd.RoundTrip

/-!
# What passes in one direction

A direction carries bytes and the ends of messages, compressed on the wire and plain at
either end of it. What a machine makes of the wire it makes symbol by symbol, so how the
wire is cut into fragments on its way is settled here, once: a cut reads as its symbols
do.
-/

namespace WsPmd.Connection

open Grammar (Bytes)
open Library
open Library.ByteMachine (Position)
open Library.Deflate (Headed Inflater)
open Decoding (deliver)
open Encoding (Aligned)

inductive Symbol where
  | byte (value : UInt8)
  | boundary
  deriving DecidableEq, Repr

namespace Symbol

def bytes : Symbol → Bytes
  | byte value => [value]
  | boundary => []

def ends : Symbol → Bool
  | byte _ => false
  | boundary => true

end Symbol

/-- Bytes of a message, up to its end or not. -/
def spell (bytes : Bytes) (finalFragment : Bool) : List Symbol :=
  bytes.map .byte ++ if finalFragment then [.boundary] else []

theorem spell_cons (byte : UInt8) (bytes : Bytes) (finalFragment : Bool) :
    spell (byte :: bytes) finalFragment = .byte byte :: spell bytes finalFragment := rfl

theorem spell_append (bytes bytes' : Bytes) (finalFragment : Bool) :
    spell (bytes ++ bytes') finalFragment = spell bytes false ++ spell bytes' finalFragment := by
  simp only [spell, List.map_append, Bool.false_eq_true, if_false, List.append_nil,
    List.append_assoc]

/-- The bytes of the message in progress, behind the last that ended. -/
def given (symbols : List Symbol) : ℕ := (symbols.rtakeWhile (· ≠ .boundary)).length

@[simp] theorem given_nil : given [] = 0 := rfl

theorem given_bytes (symbols : List Symbol) (bytes : Bytes) :
    given (symbols ++ bytes.map .byte) = given symbols + bytes.length := by
  induction bytes using List.reverseRecOn with
  | nil => simp only [List.map_nil, List.append_nil, List.length_nil, Nat.add_zero]
  | append_singleton bytes byte ih =>
    unfold given at ih ⊢
    rw [List.map_append, List.map_singleton, ← List.append_assoc,
      List.rtakeWhile_concat_pos _ _ _ rfl, List.length_append, ih, List.length_append]
    simp only [List.length_singleton]
    omega

theorem given_spell (symbols : List Symbol) (bytes : Bytes) (finalFragment : Bool) :
    given (symbols ++ spell bytes finalFragment) =
      if finalFragment then 0 else given symbols + bytes.length := by
  cases finalFragment with
  | false =>
    simp only [spell, Bool.false_eq_true, if_false, List.append_nil]
    exact given_bytes symbols bytes
  | true =>
    simp only [spell, if_true, given, ← List.append_assoc]
    rw [List.rtakeWhile_concat_neg _ _ _ (by decide)]
    rfl

/-! ## What a machine makes of a wire -/

section Relay

variable {S : Type} (M : ByteMachine S) (reset : Bool)

/-- Deliver the wire symbol by symbol. -/
def relay (p : Position S) : List Symbol → Option (List Symbol × Position S)
  | [] => some ([], p)
  | symbol :: wire => do
    let (out, q) ← deliver M reset p symbol.bytes symbol.ends
    let (text, last) ← relay q wire
    some (spell out symbol.ends ++ text, last)

theorem relay_append (wire wire' : List Symbol) :
    ∀ p : Position S, relay M reset p (wire ++ wire') =
      (relay M reset p wire).bind fun first =>
        (relay M reset first.2 wire').map fun more => (first.1 ++ more.1, more.2) := by
  induction wire with
  | nil =>
    intro p
    cases hwire : relay M reset p wire' with
    | none => simp only [List.nil_append, relay, Option.bind_some, hwire, Option.map_none]
    | some more =>
      simp only [List.nil_append, relay, Option.bind_some, hwire, Option.map_some]
  | cons symbol wire ih =>
    intro p
    simp only [List.cons_append, relay, Option.bind_eq_bind, Option.bind_assoc]
    congr 1
    funext ⟨out, q⟩
    simp only [ih, Option.bind_assoc]
    congr 1
    funext ⟨text, last⟩
    cases hwire : relay M reset last wire' with
    | none => simp only [Option.bind_some, hwire, Option.map_none, Option.bind_none]
    | some more =>
      simp only [Option.bind_some, hwire, Option.map_some, List.append_assoc]

/-- **A fragment reads as its symbols do**, however it was cut. -/
theorem relay_spell (bytes : Bytes) (finalFragment : Bool) :
    ∀ p : Position S, relay M reset p (spell bytes finalFragment) =
      (deliver M reset p bytes finalFragment).map fun d => (spell d.1 finalFragment, d.2) := by
  induction bytes with
  | nil =>
    intro p
    cases finalFragment with
    | false => rfl
    | true =>
      change (deliver M reset p [] true).bind _ = _
      cases deliver M reset p [] true with
      | none => rfl
      | some d =>
        simp only [relay, Option.bind_eq_bind, Option.bind_some, List.append_nil, Option.map_some]
        rfl
  | cons byte bytes ih =>
    intro p
    rw [spell_cons, relay]
    simp only [Symbol.bytes, Symbol.ends, ih, Option.bind_eq_bind]
    cases hfirst : deliver M reset p [byte] false with
    | none =>
      have hall : deliver M reset p ([byte] ++ bytes) finalFragment = none :=
        Decoding.deliver_append_none bytes hfirst
      rw [List.singleton_append] at hall
      rw [hall]
      rfl
    | some d =>
      obtain ⟨more, q⟩ := d
      have hall : deliver M reset p ([byte] ++ bytes) finalFragment =
          (deliver M reset q bytes finalFragment).map fun d => (more ++ d.1, d.2) :=
        Decoding.deliver_append bytes hfirst
      rw [List.singleton_append] at hall
      rw [hall]
      simp only [Option.bind_some]
      cases deliver M reset q bytes finalFragment with
      | none => rfl
      | some d' => simp only [Option.map_some, Option.bind_some, spell_append]

variable {M reset}

/-- What is read of a wire is what is read of its front, and then the rest. -/
theorem relay_front {p last : Position S} {bytes : Bytes} {finalFragment : Bool}
    {rest text : List Symbol}
    (h : relay M reset p (spell bytes finalFragment ++ rest) = some (text, last)) :
    ∃ out q more, deliver M reset p bytes finalFragment = some (out, q) ∧
      relay M reset q rest = some (more, last) ∧ text = spell out finalFragment ++ more := by
  rw [relay_append, relay_spell] at h
  obtain ⟨first, hfirst, h⟩ := Option.bind_eq_some_iff.mp h
  obtain ⟨⟨out, q⟩, hdue, rfl⟩ := Option.map_eq_some_iff.mp hfirst
  obtain ⟨⟨more, q'⟩, hmore, he⟩ := Option.map_eq_some_iff.mp h
  obtain ⟨rfl, rfl⟩ := Prod.mk.inj he
  exact ⟨out, q, more, hdue, hmore, rfl⟩

end Relay

/-! ## What a sender puts on it -/

section Sent

variable {window allowed : ℕ} {τ : Type} {I : Inflater window τ} {recent bytes text : Bytes}
  {p : Position τ}

/-- An aligned fragment is given out in full as soon as it has arrived. -/
theorem aligned_delivers (h : Aligned allowed recent bytes text) (hw : allowed ≤ window)
    (hp : I.Boundary p.state recent) (reset : Bool) :
    ∃ q, deliver I.machine reset p bytes false = some (text, q) ∧
      I.Boundary q.state (text.reverse ++ recent) := by
  rcases h with ⟨rfl, rfl⟩ | ⟨headed, rfl, hheaded⟩
  · exact ⟨p, rfl, hp⟩
  · obtain ⟨p1, hread, hbegun, hdue⟩ := Inflater.read_headed hheaded hw hp
    obtain ⟨q, htrailer, -, hq⟩ := hdue.complete
    have htrailer' : I.machine.read p1 trailer = ⟨[], false, some q⟩ := htrailer
    have hover : (I.machine.read p headed).position = some p1 := by rw [hread]
    refine ⟨q, ?_, hq⟩
    simp only [deliver, I.machine.read_append_of trailer hover, hread, htrailer',
      List.append_nil, Bool.false_eq_true, if_false]

/-- The last of a message is given out in full, and ends it. -/
theorem headed_delivers (h : Headed allowed recent bytes text) (hw : allowed ≤ window)
    (hp : I.Boundary p.state recent) (reset : Bool) :
    ∃ q, deliver I.machine reset p bytes true = some (text, q) ∧
      I.Boundary q.state (if reset then [] else text.reverse ++ recent) :=
  (Decoding.Payload.tail h).deliver hw hp reset

end Sent

end WsPmd.Connection
