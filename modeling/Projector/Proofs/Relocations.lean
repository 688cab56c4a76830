import Mathlib.Data.Set.List
import Projector.Proofs.AddressArithmetic
import Projector.Proofs.Transfers

/-!
# One move in a ledger that any moves have led to

A ledger does not know the outline whose moves it remembers. Whatever moves between canonical
addresses are entered, sensible for some outline or not, its records hold addresses of paths, and no
two records have the same address. In such a ledger one more move of a field can be entered whenever
nothing outside the field was moved to where the field goes, and afterwards every address at or
below the new place of the field resolves as the same address below the old place did before.
-/

namespace Projector

namespace Ledger

/-- Whether a move is between canonical addresses. -/
structure Move.IsCanonical (move : Move) : Prop where
  source : Address.IsCanonical move.source
  parent : Address.IsCanonical move.parent

instance (move : Move) : Decidable move.IsCanonical :=
  decidable_of_iff (Address.IsCanonical move.source ∧ Address.IsCanonical move.parent)
    ⟨fun ⟨hsource, hparent⟩ => ⟨hsource, hparent⟩, fun h => ⟨h.source, h.parent⟩⟩

/-- What a ledger becomes when a move is entered. A move that cannot be entered leaves it as it
was. -/
def after (ledger : Ledger) (move : Move) : Ledger :=
  match ledger.relocate move with
  | .ok (_, next) => next
  | .error _ => ledger

/-- The ledger in which some moves were entered, one after the other. -/
def ofMoves (moves : List Move) : Ledger := moves.foldl after empty

/-- A move between canonical addresses is one between paths. -/
theorem Move.IsCanonical.exists_transfer {move : Move} (h : move.IsCanonical) :
    ∃ transfer : Transfer, transfer.move = move := by
  obtain ⟨source, hsource⟩ := Address.isCanonical_iff.mp h.source
  obtain ⟨parent, hparent⟩ := Address.isCanonical_iff.mp h.parent
  refine ⟨{ source, parent, key := move.key, intoArray := move.intoArray }, ?_⟩
  rw [Transfer.move, hsource, hparent]

/-! ## Entering a record -/

/-- Only the record that is entered is new. -/
theorem eq_or_mem_of_mem_enter {records : List Record} {record other : Record}
    (h : other ∈ enter records record) : other = record ∨ other ∈ records := by
  induction records with
  | nil => exact .inl (List.mem_singleton.mp h)
  | cons first rest ih =>
    rw [enter] at h
    split at h
    · rcases List.mem_cons.mp h with h | h
      · exact .inl h
      · exact .inr (List.mem_cons_of_mem _ h)
    · rcases List.mem_cons.mp h with rfl | h
      · exact .inr List.mem_cons_self
      · exact (ih h).imp_right (List.mem_cons_of_mem _)

/-- Entering a record keeps the addresses of records different. -/
theorem nodup_enter {records : List Record} (h : (records.map Record.address).Nodup)
    (record : Record) : ((enter records record).map Record.address).Nodup := by
  induction records with
  | nil => exact List.nodup_singleton _
  | cons first rest ih =>
    rw [List.map_cons, List.nodup_cons] at h
    rw [enter]
    split
    · next hsame =>
      rw [List.map_cons, List.nodup_cons, ← hsame]
      exact h
    · next hother =>
      rw [List.map_cons, List.nodup_cons]
      refine ⟨fun hfirst => ?_, ih h.2⟩
      obtain ⟨other, hmem, haddress⟩ := List.mem_map.mp hfirst
      rcases eq_or_mem_of_mem_enter hmem with rfl | hmem
      · exact hother haddress.symm
      · exact h.1 (haddress ▸ List.mem_map_of_mem hmem)

/-! ## Records of paths -/

/-- Whether records hold addresses of paths, no two of them the same address. -/
structure Traced (records : List Record) : Prop where
  exists_trace : ∀ record ∈ records, ∃ trace : Trace, trace.record = record
  nodup : (records.map Record.address).Nodup

/-- Such records are those of traces at different paths. -/
theorem Traced.exists_traces {records : List Record} (h : Traced records) :
    ∃ traces, traces.map Trace.record = records ∧ Trace.Apart traces := by
  have hrange : records ∈ Set.range (List.map Trace.record) := by
    rw [Set.range_list_map]
    exact h.exists_trace
  obtain ⟨traces, rfl⟩ := hrange
  have haddresses := h.nodup
  have hpaths : Record.address ∘ Trace.record = Path.address ∘ Trace.path :=
    funext Trace.record_address
  rw [List.map_map, hpaths, ← List.map_map] at haddresses
  exact ⟨traces, rfl, haddresses.of_map⟩

/-- Records stay traced when that of a trace is entered. -/
theorem Traced.enter {records : List Record} (h : Traced records) (trace : Trace) :
    Traced (enter records trace.record) where
  exists_trace _ hmem := (eq_or_mem_of_mem_enter hmem).elim (fun heq => ⟨trace, heq.symm⟩)
    (h.exists_trace _)
  nodup := nodup_enter h.nodup _

/-- What becomes of the record of a trace is the record of a trace again. -/
theorem exists_trace_of_carried {transfer : Transfer} {trace : Trace} {record : Record}
    (h : carried transfer.move trace.record = .ok record) :
    ∃ next : Trace, next.record = record := by
  obtain ⟨covered, -, h⟩ := exists_of_bind_eq_ok h
  cases covered with
  | false => exact ⟨trace, Except.ok.inj h⟩
  | true =>
    -- The parent of a record below the brackets of a list may be the list, which is not below them.
    -- Such a move is refused, so here the parent is moved along.
    obtain ⟨parent, hparent, h⟩ := exists_of_bind_eq_ok h
    rw [Transfer.move_address] at hparent
    obtain ⟨rest, -, rfl⟩ := (Address.rebase_eq_ok_iff (Address.parse_address trace.parent)
      (Address.parse_address transfer.source) (Address.parse_address _)).mp hparent
    exact ⟨{ trace with parent := transfer.target ++ rest }, Except.ok.inj h⟩

/-- Records stay traced when one more record is carried along. -/
theorem Traced.carry {transfer : Transfer} {entered next : List Record} (h : Traced entered)
    {trace : Trace} (hnext : carry transfer.move entered trace.record = .ok next) :
    Traced next := by
  rw [Ledger.carry] at hnext
  split at hnext
  · exact Except.ok.inj hnext ▸ h
  · obtain ⟨record, hcarried, hnext⟩ := exists_of_bind_eq_ok hnext
    obtain ⟨moved, rfl⟩ := exists_trace_of_carried hcarried
    exact Except.ok.inj hnext ▸ h.enter moved

/-- Records stay traced when those of several traces are carried along. -/
theorem Traced.foldlM_carry {transfer : Transfer} {entered next : List Record} (h : Traced entered)
    {traces : List Trace}
    (hnext : (traces.map Trace.record).foldlM (Ledger.carry transfer.move) entered = .ok next) :
    Traced next := by
  induction traces generalizing entered with
  | nil => exact Except.ok.inj hnext ▸ h
  | cons trace traces ih =>
    rw [List.map_cons, List.foldlM_cons] at hnext
    obtain ⟨middle, hmiddle, hnext⟩ := exists_of_bind_eq_ok hnext
    exact ih (h.carry hmiddle) hnext

/-- Entering a move between canonical addresses keeps the records of a ledger traced, even when the
record of another part is lost because both parts are shown at the same address. -/
theorem Traced.relocate {ledger next : Ledger} (h : Traced ledger.records) {move : Move}
    (hmove : move.IsCanonical) {record : Record}
    (hnext : ledger.relocate move = .ok (record, next)) : Traced next.records := by
  obtain ⟨transfer, rfl⟩ := hmove.exists_transfer
  obtain ⟨traces, hrecords, hapart⟩ := h.exists_traces
  obtain rfl : Trace.ledger traces = ledger := by rw [Trace.ledger, hrecords]
  obtain ⟨moved, hmoved, hnext⟩ := exists_of_bind_eq_ok hnext
  obtain ⟨others, hothers, hnext⟩ := exists_of_bind_eq_ok hnext
  obtain rfl := Except.ok.inj (hmoved.symm.trans (Transfer.moved_record hapart))
  obtain ⟨-, rfl⟩ := Prod.mk.inj (Except.ok.inj hnext)
  have hnone : Traced [] := ⟨by simp, List.nodup_nil⟩
  exact (hnone.foldlM_carry hothers).enter _

/-- Whatever moves between canonical addresses were entered, the records of the ledger are
traced. -/
theorem traced_ofMoves {moves : List Move} (h : ∀ move ∈ moves, move.IsCanonical) :
    Traced (ofMoves moves).records := by
  induction moves using List.reverseRecOn with
  | nil => exact ⟨by simp [ofMoves, empty], List.nodup_nil⟩
  | append_singleton moves move ih =>
    have hbefore := ih fun other hother => h other (List.mem_append_left _ hother)
    rw [ofMoves, List.foldl_append, List.foldl_cons, List.foldl_nil, ← ofMoves, after]
    split
    · next hnext => exact hbefore.relocate (h move (by simp)) hnext
    · exact hbefore

end Ledger

/-! ## One more move -/

namespace Transfer

variable {transfer : Transfer} {traces : List Trace}

/-- What is moved is a field when its address does not end in brackets and does not lie strictly
above where it goes. -/
theorem exists_field (hbrackets : ¬"[]".toList <:+ transfer.source.address.toList)
    (hbelow : transfer.source <+: transfer.target → transfer.target = transfer.source) :
    ∃ front name, transfer.source = front ++ [.field name] := by
  rcases List.eq_nil_or_concat transfer.source with hroot | ⟨front, segment, hsource⟩
  · -- Every place lies below the root, and none that a field goes to is the root.
    have htarget := hbelow (hroot ▸ List.nil_prefix)
    rw [hroot, target, Address.below] at htarget
    simp at htarget
  · rw [List.concat_eq_append] at hsource
    cases segment with
    | field name => exact ⟨front, name, hsource⟩
    | each =>
      refine absurd ?_ hbrackets
      rw [hsource, Address.address_append, String.toList_append]
      exact List.suffix_append _ _

/-- What is at or below the target after a clear move has the home it had below the source. -/
theorem homeOf_target (hclear : transfer.Clear traces) (hapart : Trace.Apart traces)
    (rest : Path) : Trace.homeOf (transfer.apply traces) (transfer.target ++ rest) =
      Trace.homeOf traces (transfer.source ++ rest) :=
  Trace.homeOf_eq (apart_apply hclear hapart)
    (livesAt_target hclear hapart (Trace.livesAt_homeOf traces _))

/-- What is outside both places of a clear move has the home it had. -/
theorem homeOf_outside (hclear : transfer.Clear traces) (hapart : Trace.Apart traces) {path : Path}
    (hsource : ¬transfer.source <+: path) (htarget : ¬transfer.target <+: path) :
    Trace.homeOf (transfer.apply traces) path = Trace.homeOf traces path :=
  Trace.homeOf_eq (apart_apply hclear hapart)
    (livesAt_outside hclear hsource htarget (Trace.livesAt_homeOf traces _))

end Transfer

namespace Ledger

/-- In a ledger that any moves between canonical addresses have led to, one more can be entered when
the address of what it moves does not end in brackets, the new place is not inside what it moves,
and nothing from outside was moved to the new place or into it. Afterwards every address at or below
the new place resolves as the one with the same steps below the old place did before, and every
canonical address outside both places resolves as before. -/
theorem relocate_ofMoves {moves : List Move} (hmoves : ∀ earlier ∈ moves, earlier.IsCanonical)
    {move : Move} (hmove : move.IsCanonical) (hbrackets : ¬"[]".toList <:+ move.source.toList)
    (hbelow : Address.covers move.source move.address = .ok true → move.address = move.source)
    (hfree : ∀ record ∈ (ofMoves moves).records,
      Address.covers move.source record.address = .ok false →
        Address.covers move.address record.address = .ok false) :
    ∃ record next, (ofMoves moves).relocate move = .ok (record, next) ∧
      (∀ rest : Path, ∃ home : Path,
        (ofMoves moves).resolve (move.source ++ rest.chain) = .ok home.address ∧
          next.resolve (move.address ++ rest.chain) = .ok home.address) ∧
      ∀ address, Address.IsCanonical address →
        Address.covers move.source address = .ok false →
          Address.covers move.address address = .ok false →
            ∃ home : Path, (ofMoves moves).resolve address = .ok home.address ∧
              next.resolve address = .ok home.address := by
  obtain ⟨transfer, rfl⟩ := hmove.exists_transfer
  obtain ⟨traces, hrecords, hapart⟩ := (traced_ofMoves hmoves).exists_traces
  have hledger : ofMoves moves = Trace.ledger traces := by rw [Trace.ledger, hrecords]
  have hsource : transfer.move.source = transfer.source.address := rfl
  -- What the conditions say of addresses, they say of paths.
  simp only [hsource, Transfer.move_address, Address.covers_address_iff, Address.address_inj]
    at hbelow
  have hclear : transfer.Clear traces := by
    refine ⟨Transfer.exists_field hbrackets hbelow, fun trace htrace => ?_⟩
    have hrecord := hfree trace.record (hrecords ▸ List.mem_map_of_mem htrace)
    rwa [hsource, Transfer.move_address, Trace.record_address, Address.not_covers_address_iff,
      Address.not_covers_address_iff] at hrecord
  rw [hledger, hsource, Transfer.move_address]
  refine ⟨_, _, Transfer.relocate_ledger hclear hapart, fun rest => ?_, ?_⟩
  · rw [← Address.address_append, ← Address.address_append, Trace.resolve_ledger,
      Trace.resolve_ledger, Transfer.homeOf_target hclear hapart]
    exact ⟨_, rfl, rfl⟩
  · intro address haddress houtside hfar
    obtain ⟨path, rfl⟩ := Address.isCanonical_iff.mp haddress
    rw [Address.not_covers_address_iff] at houtside hfar
    rw [Trace.resolve_ledger, Trace.resolve_ledger,
      Transfer.homeOf_outside hclear hapart houtside hfar]
    exact ⟨_, rfl, rfl⟩

/-- Moves into a container, of that container into a list, of the elements of that list, which
cannot be entered, and of another field to where the container was. -/
def chainedMoves : List Move :=
  [{ source := "$.a.b", parent := "$.c", key := "b", intoArray := false },
    { source := "$.c", parent := "$.d", key := "c", intoArray := true },
    { source := "$.d[]", parent := "$.e", key := "d", intoArray := false },
    { source := "$.x", parent := "$.c", key := "y", intoArray := false }]

/-- A move of the container out of that list and into another one. -/
def onward : Move := { source := "$.d[].c", parent := "$.\"a b\"", key := "c", intoArray := true }

/-- The container was moved before and holds a field that was moved into it, and another field is
shown where it used to be. -/
theorem relocate_ofMoves_chained :
    (∀ earlier ∈ chainedMoves, earlier.IsCanonical) ∧ onward.IsCanonical ∧
      ¬"[]".toList <:+ onward.source.toList ∧
      (Address.covers onward.source onward.address = .ok true →
        onward.address = onward.source) ∧
      (∀ record ∈ (ofMoves chainedMoves).records,
        Address.covers onward.source record.address = .ok false →
          Address.covers onward.address record.address = .ok false) ∧
      ∃ record next, (ofMoves chainedMoves).relocate onward = .ok (record, next) ∧
        next.resolve "$.\"a b\"[].c.b" = .ok "$.a.b" ∧ next.resolve "$.c.y" = .ok "$.x" := by
  have hmoves : ∀ earlier ∈ chainedMoves, earlier.IsCanonical := by decide +kernel
  have honward : onward.IsCanonical := by decide +kernel
  have hbrackets : ¬"[]".toList <:+ onward.source.toList := by decide +kernel
  have hbelow : Address.covers onward.source onward.address = .ok true →
      onward.address = onward.source := by decide +kernel
  have hfree : ∀ record ∈ (ofMoves chainedMoves).records,
      Address.covers onward.source record.address = .ok false →
        Address.covers onward.address record.address = .ok false := by decide +kernel
  obtain ⟨record, next, hnext, hinside, houtside⟩ :=
    relocate_ofMoves hmoves honward hbrackets hbelow hfree
  refine ⟨hmoves, honward, hbrackets, hbelow, hfree, record, next, hnext, ?_, ?_⟩
  · obtain ⟨home, hbefore, hafter⟩ := hinside [.field "b"]
    have hvalue : (ofMoves chainedMoves).resolve "$.d[].c.b" = .ok "$.a.b" := by decide +kernel
    have hbefore : (ofMoves chainedMoves).resolve "$.d[].c.b" = .ok home.address := hbefore
    rw [hvalue] at hbefore
    rw [Except.ok.inj hbefore]
    exact hafter
  · obtain ⟨home, hbefore, hafter⟩ :=
      houtside "$.c.y" (by decide +kernel) (by decide +kernel) (by decide +kernel)
    have hvalue : (ofMoves chainedMoves).resolve "$.c.y" = .ok "$.x" := by decide +kernel
    rw [hvalue] at hbefore
    rw [Except.ok.inj hbefore]
    exact hafter

end Ledger

end Projector
