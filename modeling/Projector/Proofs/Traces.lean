import Mathlib.Data.List.Infix
import Mathlib.Data.List.Nodup
import Projector.Ledger
import Projector.Proofs.Addresses

/-!
# Where parts live

A record whose addresses are those of paths is a trace. A part lives where a trace at its own path
says, and otherwise in the home of the part around it, one step on. Looking for the trace with the
longest path at or above a part, as the ledger does, finds the same home.
-/

namespace Projector

/-- A record of a moved part, with paths instead of addresses. -/
structure Trace where
  /-- Where the part lives in the document. -/
  home : Path
  /-- The container it is shown in. -/
  parent : Path
  /-- The key it is shown under. -/
  key : String
  /-- Whether that container is a list. -/
  intoArray : Bool

namespace Trace

/-- The path that a moved part is shown at. -/
def path (trace : Trace) : Path := trace.parent ++ Address.below trace.intoArray trace.key

/-- The record that holds the addresses of a trace. -/
def record (trace : Trace) : Record :=
  { home := trace.home.address
    parent := trace.parent.address
    key := trace.key
    intoArray := trace.intoArray }

/-- The address of the record is that of the path. -/
@[simp] theorem record_address (trace : Trace) : trace.record.address = trace.path.address := by
  simp [Record.address, record, path]

/-- The ledger that holds the records of some traces. -/
def ledger (traces : List Trace) : Ledger := ⟨traces.map record⟩

/-- No two traces are at the same path. -/
def Apart (traces : List Trace) : Prop := (traces.map path).Nodup

/-- Two of several traces at different paths are the same when their paths are. -/
theorem Apart.eq {traces : List Trace} (h : Apart traces) {trace other : Trace}
    (htrace : trace ∈ traces) (hother : other ∈ traces) (hpath : trace.path = other.path) :
    trace = other :=
  List.inj_on_of_nodup_map h htrace hother hpath

end Trace

open Trace

/-- Where the part shown at a path lives in the document, as traces tell it. -/
inductive LivesAt (traces : List Trace) : Path → Path → Prop
  /-- A moved part lives where its trace says. -/
  | recorded {trace : Trace} (htrace : trace ∈ traces) : LivesAt traces trace.path trace.home
  /-- The document lives at its root. -/
  | root (hnone : ∀ trace ∈ traces, trace.path ≠ []) : LivesAt traces [] []
  /-- Any other part lives in the home of the part around it. -/
  | inside {path home : Path} {segment : Segment}
      (hnone : ∀ trace ∈ traces, trace.path ≠ path ++ [segment])
      (hpath : LivesAt traces path home) :
      LivesAt traces (path ++ [segment]) (home ++ [segment])

/-- A part that no trace covers more closely than some part around it lives in the home of that. -/
theorem LivesAt.append {traces : List Trace} {path home rest : Path} (h : LivesAt traces path home)
    (hnone : ∀ trace ∈ traces, trace.path <+: path ++ rest → trace.path.length ≤ path.length) :
    LivesAt traces (path ++ rest) (home ++ rest) := by
  induction rest using List.reverseRecOn with
  | nil => simpa using h
  | append_singleton rest segment ih =>
    rw [← List.append_assoc, ← List.append_assoc]
    refine .inside (fun trace htrace hpath => ?_) (ih fun trace htrace hleads => ?_)
    · have hlength := hnone trace htrace (by rw [hpath, List.append_assoc])
      rw [hpath] at hlength
      simp only [List.length_append, List.length_singleton] at hlength
      omega
    · exact hnone trace htrace (hleads.trans ⟨[segment], by simp⟩)

/-- A part lives in one place. -/
theorem LivesAt.unique {traces : List Trace} (hapart : Apart traces) {path home other : Path}
    (h : LivesAt traces path home) (h' : LivesAt traces path other) : home = other := by
  induction h generalizing other with
  | @recorded trace htrace =>
    generalize hpath : trace.path = path at h'
    cases h' with
    | recorded hother => rw [hapart.eq htrace hother hpath]
    | root hnone => exact absurd hpath (hnone trace htrace)
    | inside hnone _ => exact absurd hpath (hnone trace htrace)
  | root hnone =>
    generalize hpath : ([] : Path) = path at h'
    cases h' with
    | recorded hother => exact absurd hpath.symm (hnone _ hother)
    | root _ => rfl
    | inside _ _ => simp at hpath
  | @inside path home segment hnone _ ih =>
    generalize hpath : path ++ [segment] = whole at h'
    cases h' with
    | recorded hother => exact absurd hpath.symm (hnone _ hother)
    | root _ => simp at hpath
    | inside _ hother =>
      obtain ⟨rfl, hsegment⟩ := List.append_inj' hpath rfl
      rw [ih hother, List.singleton_inj.mp hsegment]

/-! ## The longest path at or above a part -/

namespace Trace

/-- The better of a trace found so far and another one: the one with the longer path, the earlier
one of two equally long ones. -/
def nearer (path : Path) (best : Option (Trace × Path)) (trace : Trace) : Option (Trace × Path) :=
  match following? trace.path path with
  | none => best
  | some rest =>
    match best with
    | none => some (trace, rest)
    | some (known, further) =>
      some (if rest.length < further.length then (trace, rest) else (known, further))

/-- The trace with the longest path at or above a part, and the steps from there to the part. -/
def nearest (traces : List Trace) (path : Path) : Option (Trace × Path) :=
  traces.foldl (nearer path) none

/-- What it means that a trace was found to be the nearest, or that none was. -/
def IsNearest (traces : List Trace) (path : Path) : Option (Trace × Path) → Prop
  | none => ∀ trace ∈ traces, ¬trace.path <+: path
  | some (trace, rest) => trace ∈ traces ∧ path = trace.path ++ rest ∧
      ∀ other ∈ traces, other.path <+: path → other.path.length ≤ trace.path.length

/-- One more trace that is not at or above a part leaves the nearest one. -/
theorem IsNearest.append_of_not_leads {traces : List Trace} {path : Path}
    {best : Option (Trace × Path)} (h : IsNearest traces path best) {trace : Trace}
    (hnot : ¬trace.path <+: path) : IsNearest (traces ++ [trace]) path best := by
  cases best with
  | none => simpa [IsNearest, or_imp, forall_and] using ⟨h, hnot⟩
  | some best =>
    obtain ⟨hmem, hpath, hlongest⟩ := h
    refine ⟨List.mem_append_left _ hmem, hpath, fun other hother hleads => ?_⟩
    rcases List.mem_append.mp hother with hother | hother
    · exact hlongest other hother hleads
    · rw [List.mem_singleton.mp hother] at hleads
      exact absurd hleads hnot

/-- The better of the nearest trace and one more is the nearest of all. -/
theorem IsNearest.nearer {traces : List Trace} {path : Path} {best : Option (Trace × Path)}
    (h : IsNearest traces path best) (trace : Trace) :
    IsNearest (traces ++ [trace]) path (nearer path best trace) := by
  unfold Trace.nearer
  cases hrest : following? trace.path path with
  | none => exact h.append_of_not_leads (following?_eq_none_iff.mp hrest)
  | some rest =>
    have hpath := following?_eq_some_iff.mp hrest
    cases best with
    | none =>
      refine ⟨by simp, hpath, fun other hother hleads => ?_⟩
      rcases List.mem_append.mp hother with hother | hother
      · exact absurd hleads (h other hother)
      · rw [List.mem_singleton.mp hother]
    | some best =>
      obtain ⟨known, further⟩ := best
      obtain ⟨hmem, hknown, hlongest⟩ := h
      have hlength := congrArg List.length (hpath.symm.trans hknown)
      simp only [List.length_append] at hlength
      dsimp only
      split
      · refine ⟨by simp, hpath, fun other hother hleads => ?_⟩
        rcases List.mem_append.mp hother with hother | hother
        · have hle := hlongest other hother hleads
          omega
        · rw [List.mem_singleton.mp hother]
      · refine ⟨List.mem_append_left _ hmem, hknown, fun other hother hleads => ?_⟩
        rcases List.mem_append.mp hother with hother | hother
        · exact hlongest other hother hleads
        · rw [List.mem_singleton.mp hother]
          omega

/-- The nearest trace is found. -/
theorem isNearest_nearest (traces : List Trace) (path : Path) :
    IsNearest traces path (nearest traces path) := by
  induction traces using List.reverseRecOn with
  | nil => simp [nearest, IsNearest]
  | append_singleton traces trace ih =>
    rw [nearest, List.foldl_append, List.foldl_cons, List.foldl_nil, ← nearest]
    exact ih.nearer trace

/-- Where a part lives: the steps from the nearest trace on, behind the home of that trace. -/
def homeOf (traces : List Trace) (path : Path) : Path :=
  match nearest traces path with
  | none => path
  | some (trace, rest) => trace.home ++ rest

/-- The home found through the nearest trace is where the part lives. -/
theorem livesAt_homeOf (traces : List Trace) (path : Path) :
    LivesAt traces path (homeOf traces path) := by
  have hnearest := isNearest_nearest traces path
  unfold homeOf
  cases hbest : nearest traces path with
  | none =>
    rw [hbest] at hnearest
    have hroot : LivesAt traces [] [] := .root fun trace htrace hpath =>
      hnearest trace htrace (hpath ▸ List.nil_prefix)
    have hnone : ∀ trace ∈ traces, trace.path <+: [] ++ path → trace.path.length ≤ 0 :=
      fun trace htrace hleads => absurd hleads (hnearest trace htrace)
    exact hroot.append hnone
  | some best =>
    obtain ⟨trace, rest⟩ := best
    rw [hbest] at hnearest
    obtain ⟨hmem, rfl, hlongest⟩ := hnearest
    exact (LivesAt.recorded hmem).append hlongest

/-- A part has the home in which it lives. -/
theorem homeOf_eq {traces : List Trace} (hapart : Apart traces) {path home : Path}
    (h : LivesAt traces path home) : homeOf traces path = home :=
  (livesAt_homeOf traces path).unique hapart h

/-- What the ledger finds when the nearest trace and the steps from it are these. -/
def covering (best : Trace × Path) : Ledger.Covering :=
  { record := best.1.record, rest := best.2 }

/-- The ledger prefers the record of the trace that is preferred. -/
theorem better_record (path : Path) (best : Option (Trace × Path)) (trace : Trace) :
    Ledger.better path (best.map covering) trace.record =
      .ok ((nearer path best trace).map covering) := by
  simp only [Ledger.better, record_address, Address.parse_address, bind, Except.bind, nearer]
  cases following? trace.path path with
  | none => rfl
  | some rest =>
    cases best with
    | none => rfl
    | some known =>
      simp only [Option.map_some, covering]
      split <;> rfl

/-- The record that the ledger finds is that of the nearest trace. -/
theorem covering?_ledger (traces : List Trace) (path : Path) :
    (ledger traces).covering? path = .ok ((nearest traces path).map covering) := by
  have hfold : ∀ best : Option (Trace × Path),
      (traces.map record).foldlM (Ledger.better path) (best.map covering) =
        .ok ((traces.foldl (nearer path) best).map covering) := by
    induction traces with
    | nil => exact fun best => rfl
    | cons trace traces ih =>
      intro best
      rw [List.map_cons, List.foldlM_cons, better_record, List.foldl_cons]
      exact ih (nearer path best trace)
  exact hfold none

/-- The ledger resolves the address of a part to the address of its home. -/
theorem resolve_ledger (traces : List Trace) (path : Path) :
    (ledger traces).resolve path.address = .ok (homeOf traces path).address := by
  simp only [Ledger.resolve, Address.parse_address, covering?_ledger, bind, Except.bind, homeOf]
  cases nearest traces path with
  | none => rfl
  | some best => simp [covering, record]

end Trace

end Projector
