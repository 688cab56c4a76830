import Projector.Proofs.Traces

/-!
# What a move does to traces

Entering a move in a ledger carries the traces inside the moved part along and gives the part a
trace of its own, provided that nothing else was moved to where the part goes. Afterwards every
part of what was moved lives where it lived before, and so does every part outside both places.
-/

namespace Projector

/-- A move of a part under a new parent, with paths instead of addresses. -/
structure Transfer where
  /-- The path that the part is shown at before the move. -/
  source : Path
  /-- The container it moves into. -/
  parent : Path
  /-- The key it is shown under after the move. -/
  key : String
  /-- Whether that container is a list. -/
  intoArray : Bool

namespace Transfer

/-- The path that the part is shown at after the move. -/
def target (transfer : Transfer) : Path :=
  transfer.parent ++ Address.below transfer.intoArray transfer.key

/-- How the ledger sees the move. -/
def move (transfer : Transfer) : Ledger.Move :=
  { source := transfer.source.address
    parent := transfer.parent.address
    key := transfer.key
    intoArray := transfer.intoArray }

/-- The address after the move is that of the target. -/
@[simp] theorem move_address (transfer : Transfer) :
    transfer.move.address = transfer.target.address := by
  simp [Ledger.Move.address, move, target]

/-- Where a path leads to after the move: inside the moved part it starts with the target. -/
def carry (transfer : Transfer) (path : Path) : Path :=
  match following? transfer.source path with
  | none => path
  | some rest => transfer.target ++ rest

/-- Paths inside the moved part are carried along. -/
@[simp] theorem carry_append (transfer : Transfer) (rest : Path) :
    transfer.carry (transfer.source ++ rest) = transfer.target ++ rest := by
  have h : following? transfer.source (transfer.source ++ rest) = some rest :=
    following?_eq_some_iff.mpr rfl
  simp [carry, h]

/-- Paths outside the moved part stay. -/
theorem carry_of_outside {transfer : Transfer} {path : Path}
    (h : ¬transfer.source <+: path) : transfer.carry path = path := by
  simp [carry, following?_eq_none_iff.mpr h]

/-- A trace after the move: inside the moved part its container is carried along. -/
def carryTrace (transfer : Transfer) (trace : Trace) : Trace :=
  { trace with parent := transfer.carry trace.parent }

/-- The trace of the moved part, which lives where it lived before. -/
def moved (transfer : Transfer) (traces : List Trace) : Trace :=
  { home := Trace.homeOf traces transfer.source
    parent := transfer.parent
    key := transfer.key
    intoArray := transfer.intoArray }

/-- The moved part is shown at the target. -/
@[simp] theorem moved_path (transfer : Transfer) (traces : List Trace) :
    (transfer.moved traces).path = transfer.target := rfl

/-- The traces of the other parts after the move. -/
def others (transfer : Transfer) (traces : List Trace) : List Trace :=
  (traces.filter fun trace => trace.path ≠ transfer.source).map transfer.carryTrace

/-- All traces after the move. -/
def apply (transfer : Transfer) (traces : List Trace) : List Trace :=
  transfer.others traces ++ [transfer.moved traces]

/-- A move that keeps traces apart: it moves a field, and nothing outside what it moves was moved
to where the field goes. -/
structure Clear (transfer : Transfer) (traces : List Trace) : Prop where
  field : ∃ front name, transfer.source = front ++ [.field name]
  free : ∀ trace ∈ traces, ¬transfer.source <+: trace.path → ¬transfer.target <+: trace.path

variable {transfer : Transfer} {traces : List Trace}

/-- A moved part strictly inside another one has its container at or inside that one. -/
theorem prefix_parent (hfield : ∃ front name, transfer.source = front ++ [.field name])
    {trace : Trace} (hleads : transfer.source <+: trace.path)
    (hne : trace.path ≠ transfer.source) : transfer.source <+: trace.parent := by
  obtain ⟨front, name, hsource⟩ := hfield
  rw [Trace.path, Address.below, ← List.append_assoc, List.prefix_concat_iff] at hleads
  rcases hleads with heq | hleads
  · refine absurd ?_ hne
    rw [heq, Trace.path, Address.below, List.append_assoc]
  · cases hinto : trace.intoArray with
    | false => simpa [hinto] using hleads
    | true =>
      rw [hinto, if_pos rfl, List.prefix_concat_iff] at hleads
      rcases hleads with heq | hleads
      · rw [hsource] at heq
        simpa using (List.append_inj' heq rfl).2
      · exact hleads

/-- A carried trace is at the carried path. -/
theorem carryTrace_path (hfield : ∃ front name, transfer.source = front ++ [.field name])
    {trace : Trace} (hne : trace.path ≠ transfer.source) :
    (transfer.carryTrace trace).path = transfer.carry trace.path := by
  by_cases hleads : transfer.source <+: trace.path
  · obtain ⟨rest, hrest⟩ := prefix_parent hfield hleads hne
    simp only [carryTrace, Trace.path, ← hrest, List.append_assoc, carry_append]
  · have hparent : ¬transfer.source <+: trace.parent := fun h =>
      hleads (h.trans (List.prefix_append _ _))
    rw [carry_of_outside hleads, carryTrace, carry_of_outside hparent]

/-- Which traces there are after a move, besides that of the moved part. -/
theorem mem_others (hclear : transfer.Clear traces) {path : Path} :
    (∃ trace ∈ transfer.others traces, trace.path = path) ↔
      ∃ trace ∈ traces, trace.path ≠ transfer.source ∧ transfer.carry trace.path = path := by
  simp only [others, List.mem_map, List.mem_filter, decide_eq_true_eq]
  constructor
  · rintro ⟨_, ⟨trace, ⟨htrace, hne⟩, rfl⟩, rfl⟩
    exact ⟨trace, htrace, hne, (carryTrace_path hclear.field hne).symm⟩
  · rintro ⟨trace, htrace, hne, rfl⟩
    exact ⟨_, ⟨trace, ⟨htrace, hne⟩, rfl⟩, carryTrace_path hclear.field hne⟩

/-- A path is carried to one inside the target only from inside the moved part. -/
theorem prefix_of_carry (hclear : transfer.Clear traces) {trace : Trace} (htrace : trace ∈ traces)
    {rest : Path} (h : transfer.carry trace.path = transfer.target ++ rest) :
    trace.path = transfer.source ++ rest := by
  by_cases hleads : transfer.source <+: trace.path
  · obtain ⟨deeper, hdeeper⟩ := hleads
    rw [← hdeeper, carry_append, List.append_cancel_left_eq] at h
    rw [← hdeeper, h]
  · rw [carry_of_outside hleads] at h
    exact absurd ⟨rest, h.symm⟩ (hclear.free trace htrace hleads)

/-- Different traces are carried to different paths. -/
theorem carry_inj (hclear : transfer.Clear traces) {trace other : Trace} (htrace : trace ∈ traces)
    (hother : other ∈ traces) (h : transfer.carry trace.path = transfer.carry other.path) :
    trace.path = other.path := by
  by_cases hleads : transfer.source <+: trace.path
  · obtain ⟨rest, hrest⟩ := hleads
    rw [← hrest, carry_append] at h
    rw [← hrest, prefix_of_carry hclear hother h.symm]
  · by_cases hleads' : transfer.source <+: other.path
    · obtain ⟨rest, hrest⟩ := hleads'
      rw [← hrest, carry_append] at h
      rw [← hrest, prefix_of_carry hclear htrace h]
    · rwa [carry_of_outside hleads, carry_of_outside hleads'] at h

/-- After a clear move traces are still apart. -/
theorem apart_apply (hclear : transfer.Clear traces) (hapart : Trace.Apart traces) :
    Trace.Apart (transfer.apply traces) := by
  have hothers : Trace.Apart (transfer.others traces) := by
    unfold Trace.Apart others at *
    rw [List.map_map]
    refine List.Nodup.map_on ?_ (List.Nodup.of_map _ hapart |>.filter _)
    intro trace htrace other hother h
    rw [List.mem_filter, decide_eq_true_eq] at htrace hother
    rw [Function.comp_apply, Function.comp_apply, carryTrace_path hclear.field htrace.2,
      carryTrace_path hclear.field hother.2] at h
    exact Trace.Apart.eq hapart htrace.1 hother.1 (carry_inj hclear htrace.1 hother.1 h)
  unfold Trace.Apart apply at *
  rw [List.map_append, List.map_singleton, List.nodup_append]
  refine ⟨hothers, by simp, ?_⟩
  intro path hpath other hother heq
  rw [List.mem_singleton, moved_path] at hother
  obtain ⟨trace, htrace, hne, hcarry⟩ := (mem_others hclear).mp (List.mem_map.mp hpath)
  have htarget : transfer.carry trace.path = transfer.target ++ [] := by
    rw [hcarry, heq, hother, List.append_nil]
  exact hne (by simpa using prefix_of_carry hclear htrace htarget)

/-! ## The ledger after a move -/

/-- A record with a new address is entered behind the others. -/
theorem enter_of_not_mem {records : List Record} {record : Record}
    (hnew : ∀ other ∈ records, other.address ≠ record.address) :
    Ledger.enter records record = records ++ [record] := by
  induction records with
  | nil => rfl
  | cons other rest ih =>
    rw [Ledger.enter, if_neg (hnew other (by simp)), ih fun other h => hnew other (by simp [h])]
    rfl

/-- A trace at a new path is entered behind the others. -/
theorem enter_record {entered : List Trace} {trace : Trace}
    (hapart : Trace.Apart (entered ++ [trace])) :
    Ledger.enter (entered.map Trace.record) trace.record =
      (entered ++ [trace]).map Trace.record := by
  rw [enter_of_not_mem, List.map_append, List.map_singleton]
  intro other hother
  obtain ⟨known, hknown, rfl⟩ := List.mem_map.mp hother
  rw [Trace.record_address, Trace.record_address, ne_eq, Address.address_inj]
  rw [Trace.Apart, List.map_append, List.nodup_append] at hapart
  exact hapart.2.2 _ (List.mem_map_of_mem hknown) _ (by simp)

/-- The ledger carries the record of a trace as the trace is carried. -/
theorem carried_record (hfield : ∃ front name, transfer.source = front ++ [.field name])
    {trace : Trace} (hne : trace.path ≠ transfer.source) :
    Ledger.carried transfer.move trace.record = .ok (transfer.carryTrace trace).record := by
  simp only [Ledger.carried, Trace.record_address, bind, Except.bind]
  rw [show transfer.move.source = transfer.source.address from rfl, Address.covers_address]
  cases hfollowing : following? transfer.source trace.path with
  | none =>
    have hleads := following?_eq_none_iff.mp hfollowing
    have hparent : ¬transfer.source <+: trace.parent := fun h =>
      hleads (h.trans (List.prefix_append _ _))
    simp [carryTrace, carry_of_outside hparent]
  | some rest =>
    have hleads : transfer.source <+: trace.path :=
      ⟨rest, (following?_eq_some_iff.mp hfollowing).symm⟩
    obtain ⟨deeper, hdeeper⟩ := prefix_parent hfield hleads hne
    have hrebase := Address.rebase_address transfer.source transfer.target deeper
    rw [hdeeper] at hrebase
    simp only [Option.isSome_some, if_true, Trace.record, move_address, hrebase, carryTrace]
    rw [← hdeeper, carry_append]

/-- Carrying the traces one after the other enters those of the other parts. -/
theorem foldlM_carry (hfield : ∃ front name, transfer.source = front ++ [.field name])
    {entered : List Trace} (hapart : Trace.Apart (entered ++ transfer.others traces)) :
    (traces.map Trace.record).foldlM (Ledger.carry transfer.move) (entered.map Trace.record) =
      .ok ((entered ++ transfer.others traces).map Trace.record) := by
  induction traces generalizing entered with
  | nil => simp [others, pure, Except.pure]
  | cons trace traces ih =>
    rw [List.map_cons, List.foldlM_cons]
    by_cases hsource : trace.path = transfer.source
    · have hskip : transfer.others (trace :: traces) = transfer.others traces := by
        simp [others, hsource]
      rw [hskip] at hapart ⊢
      have hcarry : Ledger.carry transfer.move (entered.map Trace.record) trace.record =
          .ok (entered.map Trace.record) := by
        simp [Ledger.carry, hsource, move]
      rw [hcarry]
      exact ih hapart
    · have hkeep : transfer.others (trace :: traces) =
          transfer.carryTrace trace :: transfer.others traces := by
        simp [others, hsource]
      rw [hkeep, List.append_cons] at hapart
      have hnext : Trace.Apart (entered ++ [transfer.carryTrace trace]) := by
        rw [Trace.Apart, List.map_append] at hapart
        exact (List.nodup_append.mp hapart).1
      have hcarry : Ledger.carry transfer.move (entered.map Trace.record) trace.record =
          .ok ((entered ++ [transfer.carryTrace trace]).map Trace.record) := by
        have hne : trace.record.address ≠ transfer.move.source := by
          rw [Trace.record_address]
          exact fun h => hsource (Address.address_injective h)
        rw [Ledger.carry, if_neg hne, carried_record hfield hsource, ← enter_record hnext]
        rfl
      rw [hcarry, hkeep, List.append_cons entered _ (transfer.others traces)]
      exact ih hapart

/-- The record of the moved part keeps the home of the part. -/
theorem moved_record (hapart : Trace.Apart traces) :
    (Trace.ledger traces).moved transfer.move = .ok (transfer.moved traces).record := by
  unfold Ledger.moved
  cases hget : (Trace.ledger traces).get? transfer.move.source with
  | none =>
    simp only [move, Trace.resolve_ledger, bind, Except.bind]
    rfl
  | some record =>
    have haddress := List.find?_some hget
    obtain ⟨trace, htrace, rfl⟩ := List.mem_map.mp (List.mem_of_find?_eq_some hget)
    have hpath : trace.path = transfer.source := by simpa [move] using haddress
    have hhome : Trace.homeOf traces transfer.source = trace.home := by
      rw [← hpath]
      exact Trace.homeOf_eq hapart (.recorded htrace)
    simp [moved, hhome, Trace.record, move]

/-- Entering a clear move in the ledger of some traces gives the ledger of the traces after it. -/
theorem relocate_ledger (hclear : transfer.Clear traces) (hapart : Trace.Apart traces) :
    (Trace.ledger traces).relocate transfer.move =
      .ok ((transfer.moved traces).record, Trace.ledger (transfer.apply traces)) := by
  have hafter := apart_apply hclear hapart
  have hothers : Trace.Apart ([] ++ transfer.others traces) := by
    rw [apply, Trace.Apart, List.map_append] at hafter
    rw [List.nil_append]
    exact (List.nodup_append.mp hafter).1
  have hfold : (Trace.ledger traces).records.foldlM (Ledger.carry transfer.move) [] =
      .ok ((transfer.others traces).map Trace.record) := foldlM_carry hclear.field hothers
  simp only [Ledger.relocate, moved_record hapart, bind, Except.bind, hfold]
  rw [enter_record hafter]
  rfl

/-! ## Homes after a move -/

/-- A trace of another part is carried along with its home. -/
theorem recorded_carry (hclear : transfer.Clear traces) {trace : Trace} (htrace : trace ∈ traces)
    (hne : trace.path ≠ transfer.source) :
    LivesAt (transfer.apply traces) (transfer.carry trace.path) trace.home := by
  have hmem : transfer.carryTrace trace ∈ transfer.apply traces :=
    List.mem_append_left _ (List.mem_map_of_mem (List.mem_filter.mpr ⟨htrace, by simpa using hne⟩))
  rw [← carryTrace_path hclear.field hne]
  exact .recorded hmem

/-- No trace is at a path after the move when none was at the one that it comes from. -/
theorem not_recorded_carry (hclear : transfer.Clear traces) {path : Path}
    (htarget : transfer.target ≠ path)
    (hnone : ∀ trace ∈ traces, transfer.carry trace.path ≠ path) :
    ∀ trace ∈ transfer.apply traces, trace.path ≠ path := by
  intro trace htrace hpath
  rcases List.mem_append.mp htrace with h | h
  · obtain ⟨other, hother, -, hcarry⟩ := (mem_others hclear).mp ⟨trace, h, hpath⟩
    exact hnone other hother hcarry
  · rw [List.mem_singleton.mp h, moved_path] at hpath
    exact htarget hpath

/-- Every part of what was moved lives where it lived before. -/
theorem livesAt_target (hclear : transfer.Clear traces) (hapart : Trace.Apart traces)
    {rest home : Path} (h : LivesAt traces (transfer.source ++ rest) home) :
    LivesAt (transfer.apply traces) (transfer.target ++ rest) home := by
  induction rest using List.reverseRecOn generalizing home with
  | nil =>
    rw [List.append_nil] at h ⊢
    rw [← Trace.homeOf_eq hapart h, ← transfer.moved_path traces]
    exact .recorded (List.mem_append_right _ (List.mem_singleton_self _))
  | append_singleton rest segment ih =>
    generalize hpath : transfer.source ++ (rest ++ [segment]) = path at h
    cases h with
    | @recorded trace htrace =>
      have hne : trace.path ≠ transfer.source := by rw [← hpath]; simp
      have hmoved := recorded_carry hclear htrace hne
      rwa [← hpath, carry_append] at hmoved
    | root hnone => simp at hpath
    | inside hnone hinside =>
      rw [← List.append_assoc] at hpath ⊢
      obtain ⟨rfl, hsegment⟩ := List.append_inj' hpath rfl
      obtain rfl := List.singleton_inj.mp hsegment
      refine .inside (not_recorded_carry hclear (by simp) fun trace htrace hcarry => ?_)
        (ih hinside)
      rw [List.append_assoc] at hcarry
      refine hnone trace htrace ?_
      rw [prefix_of_carry hclear htrace hcarry, List.append_assoc]

/-- Every part outside both places of the move lives where it lived before. -/
theorem livesAt_outside (hclear : transfer.Clear traces) {path home : Path}
    (hsource : ¬transfer.source <+: path) (htarget : ¬transfer.target <+: path)
    (h : LivesAt traces path home) : LivesAt (transfer.apply traces) path home := by
  induction h with
  | @recorded trace htrace =>
    have hne : trace.path ≠ transfer.source := fun heq => hsource (heq ▸ List.prefix_rfl)
    have hmoved := recorded_carry hclear htrace hne
    rwa [carry_of_outside hsource] at hmoved
  | root hnone =>
    refine .root (not_recorded_carry hclear (fun h => htarget (h ▸ List.prefix_rfl)) ?_)
    intro trace htrace hcarry
    by_cases hleads : transfer.source <+: trace.path
    · obtain ⟨rest, hrest⟩ := hleads
      rw [← hrest, carry_append] at hcarry
      simp [target, Address.below] at hcarry
    · rw [carry_of_outside hleads] at hcarry
      exact hnone trace htrace hcarry
  | @inside path home segment hnone _ ih =>
    have hup : ∀ other : Path, ¬other <+: path ++ [segment] → ¬other <+: path :=
      fun other hnot hleads => hnot (hleads.trans (List.prefix_append _ _))
    refine .inside (not_recorded_carry hclear (fun h => htarget (h ▸ List.prefix_rfl)) ?_)
      (ih (hup _ hsource) (hup _ htarget))
    intro trace htrace hcarry
    by_cases hleads : transfer.source <+: trace.path
    · obtain ⟨rest, hrest⟩ := hleads
      rw [← hrest, carry_append] at hcarry
      exact htarget (hcarry ▸ List.prefix_append _ _)
    · rw [carry_of_outside hleads] at hcarry
      exact hnone trace htrace hcarry

end Transfer

end Projector
