import WsPmd.Library.Deflate.Streams
import WsPmd.Library.Following

/-!
# Inflaters of the format

An inflater is any machine that follows the one of the format: strings that are
DEFLATE it reads as the format has them, and of other strings nothing is asked.
Implementations differ there, in how many bytes they take before they report a
fault. `eager` reports at the offending byte and `patient` never does.
-/

namespace WsPmd.Library.Deflate

open ByteMachine (Position)

variable {window : ℕ} {T : Type}

structure Inflater (window : ℕ) (T : Type) where
  machine : ByteMachine T
  reads : T → Option State
  follows : machine.Follows (Deflate.machine window) reads

namespace Inflater

def eager (window : ℕ) : Inflater window State where
  machine := Deflate.machine window
  reads := (Deflate.machine window).unlessInvalid
  follows := ByteMachine.follows_self fun s byte hinvalid => by
    change State.phase s = .invalid at hinvalid
    change State.phase (s.feedBits window (bitsOf byte)).1 = .invalid
    unfold State.phase
    rw [field_of_not_live (by rw [hinvalid]; exact nofun)]
    exact hinvalid

def patient (window : ℕ) : Inflater window (Option State) where
  machine := (Deflate.machine window).patient
  reads := id
  follows := (Deflate.machine window).patient_follows

variable (I : Inflater window T)

/-- Between two blocks, on a byte boundary, with this history. -/
def Boundary (t : T) (recent : Bytes) : Prop :=
  ∃ s, I.reads t = some s ∧ Deflate.Boundary s recent

/-- Behind the header of a stored block that is not the last, on a byte boundary. -/
def LengthDue (t : T) (recent : Bytes) : Prop :=
  ∃ s, I.reads t = some s ∧ Deflate.LengthDue s recent

theorem boundary_start : I.Boundary I.machine.start [] :=
  ⟨_, I.follows.start, Deflate.boundary_start⟩

variable {I}

theorem shows_of_reads {p : Position T} {s : State} (h : I.reads p.state = some s) :
    ByteMachine.Shows I.reads p ⟨s, p.begun, p.totalIn, p.totalOut⟩ :=
  ⟨h, rfl, rfl, rfl⟩

theorem Boundary.live {p : Position T} {recent : Bytes} (hp : I.Boundary p.state recent) :
    I.machine.Live p := by
  obtain ⟨s, hs, taken, -, rfl⟩ := hp
  exact I.follows.phase hs

/-- What the format's machine reads from where an inflater stands, the inflater reads. -/
theorem read_alike {p : Position T} {s : State} (hp : I.reads p.state = some s)
    (hlive : s.phase = .live) {bytes out : Bytes} {ended : Bool} {q : Position State}
    (h : (Deflate.machine window).read ⟨s, p.begun, p.totalIn, p.totalOut⟩ bytes =
      ⟨out, ended, some q⟩) :
    ∃ p', I.machine.read p bytes = ⟨out, ended, some p'⟩ ∧ ByteMachine.Shows I.reads p' q := by
  obtain ⟨p', hread, hshows⟩ := I.follows.read (q := ⟨s, p.begun, p.totalIn, p.totalOut⟩)
    (shows_of_reads hp) hlive (by rw [h])
  rw [h] at hread
  exact ⟨p', hread, hshows⟩

/-- A whole stream is read to its end. -/
theorem read_stream {allowed : ℕ} {recent bytes out : Bytes} (h : Stream allowed recent bytes out)
    (hw : allowed ≤ window) {p : Position T} (hp : I.Boundary p.state recent) :
    ∃ q : Position T, I.machine.read p bytes = ⟨out, true, some q⟩ ∧ I.Boundary q.state [] := by
  obtain ⟨s, hs, hboundary⟩ := hp
  have hlive : s.phase = .live := by
    obtain ⟨taken, -, rfl⟩ := hboundary
    rfl
  obtain ⟨q, hread, hq⟩ := read_alike hs hlive
    (h.read hw (p := ⟨s, p.begun, p.totalIn, p.totalOut⟩) hboundary)
  exact ⟨q, hread, _, hq.state, Deflate.boundary_start⟩

/-- Blocks and the header of a stored block are read up to its length. -/
theorem read_headed {allowed : ℕ} {recent bytes out : Bytes} (h : Headed allowed recent bytes out)
    (hw : allowed ≤ window) {p : Position T} (hp : I.Boundary p.state recent) :
    ∃ q : Position T, I.machine.read p bytes = ⟨out, false, some q⟩ ∧ q.begun = true ∧
      I.LengthDue q.state (out.reverse ++ recent) := by
  obtain ⟨s, hs, hboundary⟩ := hp
  have hlive : s.phase = .live := by
    obtain ⟨taken, -, rfl⟩ := hboundary
    rfl
  obtain ⟨q', hread', hbegun, hdue⟩ :=
    h.read hw (p := ⟨s, p.begun, p.totalIn, p.totalOut⟩) hboundary
  obtain ⟨q, hread, hq⟩ := read_alike hs hlive hread'
  exact ⟨q, hread, hq.begun.trans hbegun, _, hq.state, hdue⟩

/-- An empty length and its complement complete the stored block. -/
theorem LengthDue.complete {recent : Bytes} {p : Position T} (hp : I.LengthDue p.state recent) :
    ∃ q : Position T, I.machine.read p [0x00, 0x00, 0xff, 0xff] = ⟨[], false, some q⟩ ∧
      q.begun = true ∧ I.Boundary q.state recent := by
  obtain ⟨s, hs, hdue⟩ := hp
  have hlive : s.phase = .live := by
    obtain ⟨taken, -, rfl⟩ := hdue
    rfl
  obtain ⟨q', hread', hbegun, hboundary⟩ :=
    Deflate.LengthDue.complete window (p := ⟨s, p.begun, p.totalIn, p.totalOut⟩) hdue
  obtain ⟨q, hread, hq⟩ := read_alike hs hlive hread'
  exact ⟨q, hread, hq.begun.trans hbegun, _, hq.state, hboundary⟩

end Inflater

end WsPmd.Library.Deflate
