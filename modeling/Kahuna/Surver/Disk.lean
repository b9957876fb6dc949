import Kahuna.Surver.Basic
import Mathlib.Logic.Function.Basic

/-!
# The server and the file on the disk

The file of `Surver.FileServer` is rewritten while it is served. Each rewrite starts a generation of the
file, with contents and a modification time of its own. The server looks at the file at different times:
when it reads the header, the body and the modification time.

The hierarchy is read when the server is started. A reload reads the header again, but only to get at the
body behind it.

- `FileHistory`: the contents of all generations.
- `DiskServer.next`: the steps of the server and of those who rewrite its file.
- `DiskServer.reachable_server`: the server takes the steps of `FileServer`.
-/

namespace Surver

open Wave (SignalRef)
open Wellen (Signal)
open Transition

/-! ## The file -/

/-- What is read from the body of a file. -/
structure Body where
  timetable : List ℕ
  signal : SignalRef → Signal
  /-- The library numbers the signals that it returns. -/
  signalRef_signal (id : SignalRef) : (signal id).signalRef = id

/-- A file. `H` stands for the format and the hierarchy, which are in its header. -/
structure Contents (H : Type) where
  hierarchy : H
  /-- The body is read with a hierarchy, which need not be that of the file. -/
  body : H → Body

/-- A file and its rewrites, each of which has a new modification time. -/
structure FileHistory (H : Type) where
  contents : ℕ → Contents H
  mtime : ℕ → ℕ
  mtime_injective : mtime.Injective

/-! ## The steps -/

/-- A file, its server and its disk. -/
structure DiskServer (H : Type) where
  server : FileServer
  /-- `FileInfo::hierarchy`, with the format of the file. -/
  hierarchy : H
  /-- The generation of the file as it stands. -/
  generation : ℕ
  /-- The generation when the header was read. -/
  header : ℕ
  /-- The generation that the body was read from. -/
  body : ℕ

/-- What may happen next. -/
inductive DiskAction where
  /-- The file is rewritten. -/
  | rewrite
  | query (query : Query)
  | reload
  /-- A handler goes on. If it looks for the modification time, this says whether the file is found. -/
  | handle (i : ℕ) (found : Bool)
  | disconnect (i : ℕ)
  /-- The loader has read the body of a generation, if it could, and looks for the modification time. -/
  | bodyRead (body : Option ℕ) (found : Bool)
  | receive
  | signalsRead
  | headerRead (ok : Bool)

namespace DiskServer

variable {H : Type} (h : FileHistory H)

/-- The server was started. -/
def new : DiskServer H where
  server := .new
  hierarchy := (h.contents 0).hierarchy
  generation := 0
  header := 0
  body := 0

/-- What the loader reads from the body of a generation. -/
def readBody (d : DiskServer H) (g : ℕ) : Body := (h.contents g).body d.hierarchy

/-- The body of a generation can be read now: it was written when the header was read, or since. -/
def CanRead (d : DiskServer H) (g : ℕ) : Prop := d.header ≤ g ∧ g ≤ d.generation

instance (d : DiskServer H) (g : ℕ) : Decidable (d.CanRead g) := inferInstanceAs (Decidable (_ ∧ _))

/-- The time that a handler finds now. -/
def found (d : DiskServer H) (found : Bool) : Option ℕ :=
  if found then some (h.mtime d.generation) else none

/-- The modification time that is found now. -/
def metadata (d : DiskServer H) (found : Bool) : Metadata :=
  if found then .modified (h.mtime d.generation) else .missing

/-- What the server does. A rewrite is none of its business. -/
def action (d : DiskServer H) : DiskAction → Option Action
  | .rewrite => none
  | .query query => some (.query query)
  | .reload => some .reload
  | .handle i found => some (.handle i (if found then some (h.mtime d.generation) else none))
  | .disconnect i => some (.disconnect i)
  | .bodyRead none _ => some (.bodyRead none .missing)
  | .bodyRead (some g) found =>
    if d.CanRead g then some (.bodyRead (some (d.readBody h g).timetable) (d.metadata h found)) else none
  | .receive => some .receive
  | .signalsRead =>
    match d.server.file.loader with
    | .readsSignals ids => some (.signalsRead (ids.map (d.readBody h d.body).signal))
    | _ => none
  | .headerRead ok => some (.headerRead ok)

/-- The server and its disk after an action. -/
def next (d : DiskServer H) (a : DiskAction) : DiskServer H where
  server :=
    match d.action h a with
    | some a => d.server.next a
    | none => d.server
  -- the hierarchy of a header that is read again is dropped
  hierarchy := d.hierarchy
  generation :=
    match a with
    | .rewrite => d.generation + 1
    | _ => d.generation
  header :=
    match a with
    | .headerRead true => if d.server.file.loader = .readsHeader then d.generation else d.header
    | _ => d.header
  body :=
    match a with
    | .bodyRead (some g) _ => if d.server.file.loader = .readsBody ∧ d.CanRead g then g else d.body
    | _ => d.body

/-- The step of the system. -/
def step (d : DiskServer H) (a : DiskAction) : Run (DiskServer H) := .ok (d.next h a)

theorem action_reads {d : DiskServer H} {a : DiskAction} {b : Action} (hb : d.action h a = some b) :
    d.server.Reads b := by
  cases a with
  | signalsRead =>
    simp only [action] at hb
    split at hb
    next ids hloader =>
      obtain rfl := Option.some.inj hb
      intro ids' hids' id hid
      -- the library returns a signal for each number
      rw [hloader, Loader.readsSignals.injEq] at hids'
      subst hids'
      exact List.mem_map.2 ⟨_, List.mem_map_of_mem hid, (d.readBody h d.body).signalRef_signal id⟩
    next => cases hb
  | bodyRead g found =>
    cases g with
    | none => cases hb; trivial
    | some g =>
      simp only [action] at hb
      split at hb
      · cases hb; trivial
      · cases hb
  | rewrite => cases hb
  | query _ | reload | handle _ _ | disconnect _ | receive | headerRead _ => cases hb; trivial

/-- The server takes the steps of a server without a disk, whose library reads what it is asked for. -/
theorem reachable_server {allowed : DiskServer H → DiskAction → Prop} {d : DiskServer H}
    (hd : Reachable (step h) allowed (new h) d) :
    Reachable FileServer.step FileServer.Reads FileServer.new d.server := by
  induction hd with
  | start => exact .start
  | @step d d' a _ _ hstep ih =>
    obtain rfl := Except.ok.inj hstep
    simp only [next]
    split
    next b hb => exact ih.step (action_reads h hb) rfl
    next => exact ih

end DiskServer

/-- A file of which each generation has another time table. -/
def growing (hierarchy : ℕ → ℕ) : FileHistory ℕ where
  contents g :=
    { hierarchy := hierarchy g
      body := fun _ =>
        { timetable := [g + 1]
          signal := fun id => { signalRef := id, changes := [] }
          signalRef_signal := fun _ => rfl } }
  mtime g := g
  mtime_injective := Function.injective_id

end Surver
