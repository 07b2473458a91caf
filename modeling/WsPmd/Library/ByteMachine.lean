import Mathlib.Data.Nat.Notation
import Mathlib.Tactic.Common

/-!
# Byte-driven machines that start over

A machine takes one byte at a time and answers some output. It is live until it
has reached the end of what it reads, or found it invalid. `read` feeds it a
whole string and starts it over at every end, so one string may hold any number
of streams. `Consumes` is the machine without the restart, and a `Pending` is a
machine that owes output it has already computed: what such a machine still has
to say about an input does not depend on how the input is cut.
-/

namespace WsPmd.Library

inductive Phase where
  | live
  | ended
  | invalid
  deriving DecidableEq, Repr

structure ByteMachine (S : Type) where
  start : S
  phase : S → Phase
  feed : S → UInt8 → S × List UInt8
  start_live : phase start = .live

namespace ByteMachine

variable {S : Type}

/-- Between two bytes: the machine's state, whether the stream it is in has had a
byte yet, and how much has gone in and come out since the stream began. -/
structure Position (S : Type) where
  state : S
  begun : Bool
  totalIn : ℕ
  totalOut : ℕ
  deriving DecidableEq

/-- What reading a string answers: its output, whether a stream ended in it, and
where it leaves the machine, or nothing when the string is invalid. The output
of an invalid string is what came out before the fault was found. -/
structure Reading (S : Type) where
  output : List UInt8
  ended : Bool
  position : Option (Position S)

variable (M : ByteMachine S)

def fresh : Position S := ⟨M.start, false, 0, 0⟩

def readByte (p : Position S) (byte : UInt8) : Reading S :=
  let (state, output) := M.feed p.state byte
  match M.phase state with
  | .live => ⟨output, false, some ⟨state, true, p.totalIn + 1, p.totalOut + output.length⟩⟩
  | .ended => ⟨output, true, some M.fresh⟩
  | .invalid => ⟨output, false, none⟩

/-- One reading, and then another from where the first left the machine. -/
def Reading.andThen (r : Reading S) (next : Position S → Reading S) : Reading S :=
  match r.position with
  | none => r
  | some p => ⟨r.output ++ (next p).output, r.ended || (next p).ended, (next p).position⟩

def read (p : Position S) : List UInt8 → Reading S
  | [] => ⟨[], false, some p⟩
  | byte :: bytes => (M.readByte p byte).andThen fun p' => read p' bytes

@[simp] theorem read_nil (p : Position S) : M.read p [] = ⟨[], false, some p⟩ := rfl

theorem Reading.andThen_assoc (r : Reading S) (f g : Position S → Reading S) :
    (r.andThen f).andThen g = r.andThen fun p => (f p).andThen g := by
  obtain ⟨output, ended, position⟩ := r
  cases position with
  | none => rfl
  | some p =>
    simp only [Reading.andThen]
    generalize f p = r
    obtain ⟨output', ended', position'⟩ := r
    cases position' with
    | none => rfl
    | some q => simp only [List.append_assoc, Bool.or_assoc]

theorem Reading.nil_andThen (p : Position S) (f : Position S → Reading S) :
    (⟨[], false, some p⟩ : Reading S).andThen f = f p := by
  simp only [Reading.andThen, List.nil_append, Bool.false_or]

theorem read_append (p : Position S) (xs ys : List UInt8) :
    M.read p (xs ++ ys) = (M.read p xs).andThen fun p' => M.read p' ys := by
  induction xs generalizing p with
  | nil => rw [List.nil_append, read_nil, Reading.nil_andThen]
  | cons x xs ih =>
    rw [List.cons_append, read, read, Reading.andThen_assoc]
    congr 1
    funext p'
    exact ih p'

theorem read_append_of {p p1 : Position S} {xs : List UInt8} (ys : List UInt8)
    (h : (M.read p xs).position = some p1) :
    M.read p (xs ++ ys) = ⟨(M.read p xs).output ++ (M.read p1 ys).output,
      (M.read p xs).ended || (M.read p1 ys).ended, (M.read p1 ys).position⟩ := by
  rw [read_append]
  simp only [Reading.andThen, h]

/-- A machine stays live between bytes: an end starts it over at once. -/
def Live (p : Position S) : Prop := M.phase p.state = .live

theorem live_fresh : M.Live M.fresh := M.start_live

theorem Live.readByte {p p' : Position S} {byte : UInt8}
    (h : (M.readByte p byte).position = some p') : M.Live p' := by
  unfold ByteMachine.readByte at h
  cases hf : M.phase (M.feed p.state byte).1 with
  | live =>
    simp only [hf] at h
    obtain rfl := Option.some.inj h
    exact hf
  | ended =>
    simp only [hf] at h
    obtain rfl := Option.some.inj h
    exact M.live_fresh
  | invalid => simp only [hf] at h; cases h

theorem Live.read {p p' : Position S} {bytes : List UInt8} (hp : M.Live p)
    (h : (M.read p bytes).position = some p') : M.Live p' := by
  induction bytes generalizing p with
  | nil => exact Option.some.inj h ▸ hp
  | cons byte bytes ih =>
    rw [ByteMachine.read] at h
    unfold Reading.andThen at h
    cases hb : (M.readByte p byte).position with
    | none => simp only [hb] at h; cases h
    | some p1 =>
      simp only [hb] at h
      exact ih (Live.readByte M hb) h

/-! ## Consuming without starting over -/

/-- The machine takes these bytes, live before each of them. -/
inductive Consumes : S → List UInt8 → List UInt8 → S → Prop where
  | nil (s : S) : Consumes s [] [] s
  | cons {s s' : S} {byte : UInt8} {bytes output : List UInt8} (hlive : M.phase s = .live) :
      Consumes (M.feed s byte).1 bytes output s' →
      Consumes s (byte :: bytes) ((M.feed s byte).2 ++ output) s'

theorem Consumes.of_not_live {s s' : S} {bytes output : List UInt8}
    (h : M.Consumes s bytes output s') (hs : M.phase s ≠ .live) :
    bytes = [] ∧ output = [] ∧ s' = s := by
  cases h with
  | nil => exact ⟨rfl, rfl, rfl⟩
  | cons hlive _ => exact absurd hlive hs

/-! ## Owed output -/

/-- A machine beside the output it has computed and not handed over. -/
structure Pending (S : Type) where
  state : S
  owed : List UInt8
  totalIn : ℕ
  totalOut : ℕ
  deriving DecidableEq

def pendingFresh : Pending S := ⟨M.start, [], 0, 0⟩

/-- A pending machine that owes nothing. -/
def Position.settled (p : Position S) : Pending S := ⟨p.state, [], p.totalIn, p.totalOut⟩

/-- What a pending machine has still to say about an input: what it owes, and then
what it reads, from the start if its stream is over. -/
def outlook (x : Pending S) (begun : Bool) (input : List UInt8) : Reading S :=
  match M.phase x.state with
  | .live =>
    let r := M.read ⟨x.state, begun, x.totalIn, x.totalOut + x.owed.length⟩ input
    ⟨x.owed ++ r.output, r.ended, r.position⟩
  | .ended =>
    let r := M.read M.fresh input
    ⟨x.owed ++ r.output, true, r.position⟩
  | .invalid => ⟨x.owed, false, none⟩

theorem outlook_settled {p : Position S} (h : M.Live p) (input : List UInt8) :
    M.outlook p.settled p.begun input = M.read p input := by
  unfold Live at h
  simp only [outlook, Position.settled, h, List.nil_append, List.length_nil, Nat.add_zero]

/-- Consuming moves input into owed output, and changes nothing else. -/
theorem outlook_consumes {s s' : S} {taken output : List UInt8}
    (h : M.Consumes s taken output s') (rest : List UInt8) :
    ∀ (owed : List UInt8) (totalIn totalOut : ℕ) (begun : Bool),
      M.outlook ⟨s, owed, totalIn, totalOut⟩ begun (taken ++ rest) =
        M.outlook ⟨s', owed ++ output, totalIn + taken.length, totalOut⟩
          (begun || !taken.isEmpty) rest := by
  induction h with
  | nil s => intro owed totalIn totalOut begun; simp
  | @cons s s' byte bytes output hlive hcons ih =>
    intro owed totalIn totalOut begun
    have hin : totalIn + 1 + bytes.length = totalIn + (byte :: bytes).length := by
      rw [List.length_cons]
      omega
    have hnext := ih (owed ++ (M.feed s byte).2) (totalIn + 1) totalOut true
    rw [List.append_assoc, hin, Bool.true_or] at hnext
    rw [show (begun || !(byte :: bytes).isEmpty) = true by simp, ← hnext]
    simp only [outlook, hlive, List.cons_append, read, readByte]
    cases hphase : M.phase (M.feed s byte).1 with
    | live =>
      simp only [Reading.andThen, Bool.false_or, List.length_append, Nat.add_assoc,
        List.append_assoc]
    | ended =>
      obtain ⟨rfl, -, -⟩ := hcons.of_not_live M (by rw [hphase]; nofun)
      simp only [Reading.andThen, Bool.true_or, List.nil_append, List.append_assoc]
    | invalid => simp only [Reading.andThen]

/-- Handing over some of what is owed takes it off the front of the outlook. -/
theorem outlook_deliver (x : Pending S) (begun : Bool) (input : List UInt8) (room : ℕ) :
    M.outlook x begun input =
      ⟨x.owed.take room ++ (M.outlook ⟨x.state, x.owed.drop room, x.totalIn,
          x.totalOut + min room x.owed.length⟩ begun input).output,
        (M.outlook ⟨x.state, x.owed.drop room, x.totalIn,
          x.totalOut + min room x.owed.length⟩ begun input).ended,
        (M.outlook ⟨x.state, x.owed.drop room, x.totalIn,
          x.totalOut + min room x.owed.length⟩ begun input).position⟩ := by
  have htotal : x.totalOut + min room x.owed.length + (x.owed.drop room).length =
      x.totalOut + x.owed.length := by
    rw [List.length_drop]
    omega
  unfold outlook
  cases M.phase x.state with
  | live => simp only [htotal, ← List.append_assoc, List.take_append_drop]
  | ended => simp only [← List.append_assoc, List.take_append_drop]
  | invalid => simp only [List.take_append_drop]

end ByteMachine

end WsPmd.Library
