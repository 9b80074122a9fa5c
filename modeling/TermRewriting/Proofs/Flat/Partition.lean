import TermRewriting.Proofs.Flat.Replacement
import TermRewriting.Proofs.Replace.Limit
import TermRewriting.Proofs.Search.Partition

/-! Variables under a flat head without order. Matching them goes through the ordered partitions of
the arguments: each variable stands for one block, a single argument as itself and several as an
application of the head. -/

namespace TermRewriting

def Bindings.bindAll (b : Bindings) (entries : List (String × Term)) : Bindings :=
  entries.foldl (fun b entry => b.bind entry.1 entry.2) b

theorem Bindings.get?_bindAll_of_not_mem {b : Bindings} {entries : List (String × Term)} {x : String}
    (new : x ∉ entries.map Prod.fst) : (b.bindAll entries).get? x = b.get? x := by
  induction entries generalizing b with
  | nil => rfl
  | cons entry entries ih =>
    simp only [List.map_cons, List.mem_cons, not_or] at new
    have later : ((b.bind entry.1 entry.2).bindAll entries).get? x = (b.bind entry.1 entry.2).get? x :=
      ih new.2
    rw [get?_bind, if_neg new.1] at later
    exact later

theorem Term.substituteArgs_bindAll {names : List String} {values : List Term}
    (distinct : names.Nodup) (length : values.length = names.length)
    (apart : ∀ v ∈ values, v.isSequence = false) (b : Bindings) :
    substituteArgs (b.bindAll (names.zip values)) (names.map .symbol) = values := by
  induction names generalizing values b with
  | nil => exact (List.length_eq_zero_iff.mp length).symm
  | cons x names ih =>
    obtain ⟨v, values, rfl⟩ := List.exists_cons_of_length_eq_add_one length
    obtain ⟨new, distinct⟩ := List.nodup_cons.mp distinct
    have length : values.length = names.length := by simpa using length
    have notLater : x ∉ (names.zip values).map Prod.fst := by
      rw [List.map_fst_zip (by omega)]
      exact new
    have bound : (b.bindAll ((x :: names).zip (v :: values))).get? x = some v := by
      have later := Bindings.get?_bindAll_of_not_mem (b := b.bind x v) notLater
      rw [Bindings.get?_bind, if_pos rfl] at later
      exact later
    rw [List.map_cons, substituteArgs, bound]
    have later := ih distinct length (fun v member => apart v (by simp [member])) (b.bind x v)
    rw [Option.elim_some, items_eq_singleton (apart v (by simp)), List.singleton_append]
    exact congrArg (v :: ·) later

def Pattern.single (x : String) : Pattern := .named x (.wildcard .one none)

/-- The arguments at these positions, as one argument of the head. -/
def Term.block (head : Term) (args : List Term) : (positions : List Nat) → Term
  | [position] => args.getD position default
  | positions => .app head (positions.map fun position => args.getD position default)

theorem Term.isSequence_block {h : String} (notSequence : h ≠ "Sequence") {args : List Term}
    (apart : ∀ t ∈ args, t.isSequence = false) (positions : List Nat) :
    (block (.symbol h) args positions).isSequence = false := by
  match positions with
  | [position] =>
    rw [block, List.getD_eq_getElem?_getD]
    cases found : args[position]? with
    | none => rfl
    | some t => exact apart t (List.mem_of_getElem? found)
  | [] | _ :: _ :: _ => exact isSequence_app_symbol notSequence _

/-- Where no more than one item yields anything, the order of the items does not count. -/
theorem flatMap_reverse_of_pairwise {α β : Type} {as : List α} {f : α → List β}
    (only : as.Pairwise fun a a' => f a = [] ∨ f a' = []) : as.reverse.flatMap f = as.flatMap f := by
  induction as with
  | nil => rfl
  | cons a as ih =>
    obtain ⟨here, later⟩ := List.pairwise_cons.mp only
    simp only [List.reverse_cons, List.flatMap_append, List.flatMap_cons, List.flatMap_nil, ih later,
      List.append_nil]
    by_cases empty : f a = []
    · simp [empty]
    · have rest : as.flatMap f = [] :=
        List.flatMap_eq_nil_iff.mpr fun a' member => (here a' member).resolve_left empty
      simp [rest]

def partitionsFrom (count : Nat) (positions : List Nat) (size : Nat) : List (List (List Nat)) :=
  (Search.choose (fun _ => true) positions size).values.flatMap fun (block, rest) =>
    (partitions count rest).map (block :: ·)

/-- A last block takes all that is left, so that its sizes may be tried in any order. -/
theorem flatMap_partitionsFrom {count : Nat} {last : Bool} (isLast : last = true → count = 0)
    (positions : List Nat) :
    (if last then (List.range' 1 positions.length).reverse
      else List.range' 1 positions.length).flatMap (partitionsFrom count positions) =
        partitions (count + 1) positions := by
  cases last with
  | false => rfl
  | true =>
    obtain rfl := isLast rfl
    refine flatMap_reverse_of_pairwise ((List.pairwise_lt_range' 1).imp_of_mem ?_)
    intro size size' _ inRange' less
    have bound : size' < 1 + positions.length := (List.mem_range'_1.mp inRange').2
    refine .inl (List.flatMap_eq_nil_iff.mpr ?_)
    rintro ⟨block, rest⟩ chosen
    obtain ⟨perm, length, -⟩ := Search.perm_of_mem_choose chosen
    have count := perm.length_eq
    rw [List.length_append, length] at count
    have left : rest ≠ [] := by
      rintro rfl
      rw [List.length_nil] at count
      omega
    simp [partitions, left]

namespace Siblings

open Pattern

variable {ev : Evaluator} {s : Siblings} {b : Bindings} {x : String}

theorem flattens_single (flat : s.attributes.flat = true) (x : String) :
    s.flattens (.single x) = true := by
  simp [flattens, flat, Pattern.single, isWildcard]

theorem fits_single (flat : s.attributes.flat = true) (x : String) (t : Term) :
    s.fits (.single x) t = true := by
  simp [fits, flattens_single flat]

/-- An unbound variable is offered all subsets of the positions; the last one the largest first. -/
theorem values_splitsAt_single (flat : s.attributes.flat = true)
    (orderless : s.attributes.orderless = true) (free : b.get? x = none)
    (first last : Bool) (positions : List Nat) :
    (s.splitsAt (.single x) first last positions b).values =
      (if last then (List.range' 1 positions.length).reverse
        else List.range' 1 positions.length).flatMap fun size =>
          (Search.choose (fun _ => true) positions size).values.map fun (block, rest) =>
            ⟨[], block, rest⟩ := by
  have least : (Pattern.single x).width.least = 1 := rfl
  have most : s.most (.single x) = none := by simp [Siblings.most, flat, Pattern.single, isWildcard]
  have unbound : boundTo? b (.single x) = none := free
  have sizes : Search.sizes positions.length 1 none (!last) =
      if last then (List.range' 1 positions.length).reverse else List.range' 1 positions.length := by
    cases last <;> simp [Search.sizes, Search.largest]
  have positive : 0 ∉ Search.sizes positions.length 1 none (!last) := by simp [Search.mem_sizes]
  unfold splitsAt
  simp only [least, most, unbound, orderless, fits_single flat, List.filter_true]
  by_cases nothing : positions = []
  · simp [nothing]
  · have enough : ¬ positions.length < 1 := by simpa using nothing
    rw [if_neg enough, Bool.not_true, if_neg Bool.false_ne_true, Search.subsets,
      Visit.filter_ne_zero positive, Visit.filter_eq_zero positive, List.append_nil, sizes]
    simp only [Search.values_listing, Search.values_bind, Search.values_map, Search.values_ofList]

/-- A variable takes a block as one argument, unless the block has all arguments. -/
theorem values_presentations_single (flat : s.attributes.flat = true) (x : String)
    {positions : List Nat} (nonempty : positions ≠ []) :
    (s.presentations (.single x) (positions.map s.arg)).values =
      if positions.length = 1 ∨ positions.length < s.args.length then
        [.block s.head s.args positions]
      else [] := by
  have args : s.arg = fun position => s.args.getD position default := rfl
  match positions with
  | [position] => simp [presentations, Term.block, args]
  | p :: q :: positions =>
    have tooMany : (Pattern.single x).width.most.all
        ((((p :: q :: positions).map s.arg).length : Nat) ≤ ·) = false := by
      simp [Pattern.single, width, Span.width, Width.single]
    rw [presentations_of_length_ne_one _ _ (by simp), tooMany]
    simp [flattens_single flat, Term.block, args, Search.values_ite]

/-- An unbound variable is bound to the block as soon as it is presented. -/
theorem flatMap_single_block {β : Type} (flat : s.attributes.flat = true) (free : b.get? x = none)
    (apart : ∀ positions, (Term.block s.head s.args positions).isSequence = false) (c : Context)
    {positions : List Nat} (nonempty : positions ≠ []) (f : Match → List β) :
    ((s.presentations (.single x) (positions.map s.arg)).values.flatMap fun t =>
      (search ev (.single x) c t b).values.flatMap f) =
        if positions.length = 1 ∨ positions.length < s.args.length then
          f ⟨b.bind x (.block s.head s.args positions), {}⟩
        else [] := by
  have matched : (search ev (.single x) c (Term.block s.head s.args positions) b).values =
      [⟨b.bind x (.block s.head s.args positions), {}⟩] := by
    rw [Pattern.single, values_named rfl, free]
    simp [search, apart, headFits]
  rw [values_presentations_single flat x nonempty]
  split
  · simp [matched]
  · rfl

/-- Variables that are not bound yet are matched with each partition of the arguments in turn. They
are not offered all arguments in one block. -/
theorem values_distribute_singles (flat : s.attributes.flat = true)
    (orderless : s.attributes.orderless = true) (whole : s.whole = true)
    (apart : ∀ positions, (Term.block s.head s.args positions).isSequence = false)
    {names : List String} (distinct : names.Nodup) (free : ∀ x ∈ names, b.get? x = none)
    (first : Bool) (position : Nat) {positions : List Nat} (within : positions.length ≤ s.args.length)
    (fewer : names.length ≤ 1 → positions.length < s.args.length) :
    (s.distribute first (elementsFrom ev position (names.map Pattern.single)) (positions.map s.arg)
        b).values =
      (partitions names.length positions).map fun blocks =>
        ⟨b.bindAll (names.zip (blocks.map (Term.block s.head s.args))), {}⟩ := by
  induction names generalizing b first position positions with
  | nil =>
    cases positions <;> simp [elementsFrom, distribute, partitions, whole, Bindings.bindAll]
  | cons x names ih =>
    obtain ⟨new, distinct⟩ := List.nodup_cons.mp distinct
    have freeNow : b.get? x = none := free x (by simp)
    have isLast (last : (elementsFrom ev (position + 1) (names.map Pattern.single)).isEmpty = true) :
        names.length = 0 := by
      cases names with
      | nil => rfl
      | cons => cases last
    rw [List.map_cons, elementsFrom, distribute, splits_map_arg, List.length_cons,
      ← flatMap_partitionsFrom isLast, List.map_flatMap]
    simp only [Search.values_bind, Search.values_map,
      values_splitsAt_single flat orderless freeNow, List.flatMap_map, List.flatMap_assoc]
    refine List.flatMap_congr fun size sized => ?_
    have positive : 1 ≤ size := by
      have inRange : size ∈ List.range' 1 positions.length := by
        split at sized
        · exact List.mem_reverse.mp sized
        · exact sized
      exact (List.mem_range'_1.mp inRange).1
    rw [partitionsFrom, List.map_flatMap]
    refine List.flatMap_congr ?_
    rintro ⟨block, rest⟩ chosen
    obtain ⟨perm, length, -⟩ := Search.perm_of_mem_choose chosen
    have count := perm.length_eq
    rw [List.length_append] at count
    have nonempty : block ≠ [] := by
      rintro rfl
      rw [List.length_nil] at length
      omega
    simp only [Split.map, List.map_nil, flatMap_single_block flat freeNow apart _ nonempty]
    by_cases presented : block.length = 1 ∨ block.length < s.args.length
    · have freeLater (y : String) (member : y ∈ names) :
          (b.bind x (.block s.head s.args block)).get? y = none := by
        rw [Bindings.get?_bind, if_neg (fun eq : y = x => new (eq ▸ member))]
        exact free y (by simp [member])
      have withinLater : rest.length ≤ s.args.length := by omega
      have later := ih distinct freeLater false (position + 1) withinLater fun _ => by omega
      rw [if_pos presented, later, List.map_map, List.map_map]
      rfl
    · -- The block has all arguments, and there is nothing left for the other variables.
      have exhausted : rest = [] := List.length_eq_zero_iff.mp (by omega)
      have more : names ≠ [] := by
        rintro rfl
        have := fewer (by simp)
        omega
      obtain ⟨y, others, rfl⟩ := List.exists_cons_of_ne_nil more
      simp [if_neg presented, exhausted, partitions]

end Siblings

theorem Element.byRank_eq_self {μ : Type} {elements : List (Element μ)} (rank : Nat)
    (below : rank ≤ 3) (same : ∀ e ∈ elements, e.pattern.rank = rank) : byRank elements = elements := by
  have kept : elements.filter (·.pattern.rank == rank) = elements :=
    List.filter_eq_self.mpr fun e member => by simp [same e member]
  have dropped (r : Nat) (other : rank ≠ r) : elements.filter (·.pattern.rank == r) = [] :=
    List.filter_eq_nil_iff.mpr fun e member => by simp [same e member, other]
  have ranks : rank = 0 ∨ rank = 1 ∨ rank = 2 ∨ rank = 3 := by omega
  rcases ranks with rfl | rfl | rfl | rfl <;> simp [byRank, kept, dropped]

namespace Schema

variable {ev : Evaluator} {h : String} {names : List String} {args : List Term}

def singles (h : String) (names : List String) : Schema :=
  call h (names.map fun x => .wildcard ⟨x, .one, none⟩)

theorem toPattern_singles (h : String) (names : List String) :
    (singles h names).toPattern = .compound (.literal (.symbol h)) (names.map Pattern.single) := by
  have each : toPatterns (names.map fun x => .wildcard ⟨x, .one, none⟩) = names.map Pattern.single := by
    induction names with
    | nil => rfl
    | cons x names ih => simp [toPatterns, toPattern, Pattern.single, ih]
  rw [singles, call, toPattern, each]
  rfl

theorem isOrdinary_singles (ordinary : Construct.ofName? h = none) (names : List String) :
    (singles h names).isOrdinary = true :=
  isOrdinary_call ordinary fun s member => by
    obtain ⟨x, -, rfl⟩ := List.mem_map.mp member
    rfl

/-- What the variables are bound to, if each stands for one of the blocks. -/
def bindingsOf (h : String) (names : List String) (args : List Term) (blocks : List (List Nat)) :
    Bindings :=
  Bindings.empty.bindAll (names.zip (blocks.map (Term.block (.symbol h) args)))

theorem values_singles (flat : (ev.attributes h).flat = true)
    (orderless : (ev.attributes h).orderless = true) (notSequence : h ≠ "Sequence")
    (distinct : names.Nodup) (several : 2 ≤ names.length) (apart : ∀ t ∈ args, t.isSequence = false) :
    ((singles h names).toPattern.search ev {} (.app (.symbol h) args) .empty).values =
      (partitions names.length (List.range args.length)).map fun blocks =>
        ⟨bindingsOf h names args blocks, {}⟩ := by
  let s : Siblings := ⟨.symbol h, args, ev.attributes h, (names.map Pattern.single).length, true⟩
  have inOrder : Element.inOrder s.attributes.orderless
      (Pattern.elementsFrom ev 1 (names.map Pattern.single)) =
        Pattern.elementsFrom ev 1 (names.map Pattern.single) := by
    rw [show s.attributes.orderless = true from orderless]
    refine Element.byRank_eq_self 1 (by omega) fun e member => ?_
    obtain ⟨x, -, eq⟩ := List.mem_map.mp (Pattern.mem_elementsFrom member).1
    rw [← eq]
    rfl
  have distributed : (s.distribute true (Pattern.elementsFrom ev 1 (names.map Pattern.single))
      ((List.range args.length).map s.arg) .empty).values = _ :=
    Siblings.values_distribute_singles flat orderless rfl
      (Term.isSequence_block notSequence apart) distinct (fun _ _ => rfl) true 1
      (by simp [s]) fun few => by omega
  rw [s.map_arg_range] at distributed
  rw [toPattern_singles, Pattern.values_flat flat, Siblings.matchAll, inOrder]
  exact distributed

/-- The list of the variables is filled in to the list of the blocks, unless `List` is one of them. -/
theorem substitute_singles (notSequence : h ≠ "Sequence") (distinct : names.Nodup)
    (apart : ∀ t ∈ args, t.isSequence = false) (new : "List" ∉ names) {blocks : List (List Nat)}
    (length : blocks.length = names.length) :
    (Term.list (names.map .symbol)).substitute (bindingsOf h names args blocks) =
      .list (blocks.map (Term.block (.symbol h) args)) := by
  have free : (bindingsOf h names args blocks).get? "List" = none := by
    rw [bindingsOf, Bindings.get?_bindAll_of_not_mem]
    · rfl
    · rw [List.map_fst_zip (by simp [length])]
      exact new
  have noOption (ts : List Term) : Term.optionValue? (bindingsOf h names args blocks) (.symbol "List") ts =
      none := by
    unfold Term.optionValue?
    split <;> rfl
  have filled : Term.substituteArgs (bindingsOf h names args blocks) (names.map .symbol) =
      blocks.map (Term.block (.symbol h) args) := by
    refine Term.substituteArgs_bindAll distinct (by simpa using length) (fun v member => ?_) _
    obtain ⟨block, -, rfl⟩ := List.mem_map.mp member
    exact Term.isSequence_block notSequence apart block
  rw [Term.list, Term.call, Term.substitute, noOption, filled, Term.substitute, free]
  rfl

/-- A rule with the variables on its left yields one result for each partition. -/
theorem allResults_singles (flat : (ev.attributes h).flat = true)
    (orderless : (ev.attributes h).orderless = true) (notSequence : h ≠ "Sequence")
    (distinct : names.Nodup) (several : 2 ≤ names.length) (apart : ∀ t ∈ args, t.isSequence = false)
    {r : Rule} (lhs : r.lhs = (singles h names).toPattern) (immediate : r.delayed = false) (j : Journal) :
    (allResults ev (.app (.symbol h) args) none [r] j).1 =
      (partitions names.length (List.range args.length)).map fun blocks =>
        ev.evaluate (r.rhs.substitute (bindingsOf h names args blocks)) := by
  have explicit : r.lhs.Explicit := lhs ▸ (singles h names).explicit_toPattern
  rw [allResults_cons (by simp), Rule.applyList_eq]
  simp only [allResults_nil, List.append_nil, Search.collect_none,
    Search.answers_of_closed (Rule.closed_results explicit true)]
  rw [Rule.results, Search.values_bind, lhs,
    values_singles flat orderless notSequence distinct several apart]
  simp [Rule.result?, Leftover.isEmpty, immediate, List.map_eq_flatMap, List.flatMap_assoc]

/-- The matches of the variables, and the replacements by the list of them, go through these ways to
distribute the positions of the arguments among blocks. -/
structure EnumeratedBy (ev : Evaluator) (h : String) (names : List String) (args : List Term)
    (ways : List (List (List Nat))) : Prop where
  mem_iff : ∀ blocks, blocks ∈ ways ↔
    blocks.length = names.length ∧ IsPartition (List.range args.length) blocks
  nodup : ways.Nodup
  ordered : ways.Pairwise PartitionEarlier
  too_few : args.length < names.length → ways = []
  matched : ∀ j, ∃ p, Pattern.compile (singles h names).toTerm = .ok p ∧
    (p.allMatches ev (.app (.symbol h) args) j).1 = ways.map (bindingsOf h names args)
  replaced : ∀ j, (replaceList ev (.app (.symbol h) args)
      (.term (.call "Rule" [(singles h names).toTerm, .list (names.map .symbol)])) none j).1 =
    .ok (.list (ways.map fun blocks =>
      ev.evaluate ((Term.list (names.map .symbol)).substitute (bindingsOf h names args blocks))))
  listed : "List" ∉ names → ∀ blocks ∈ ways,
    (Term.list (names.map .symbol)).substitute (bindingsOf h names args blocks) =
      .list (blocks.map (Term.block (.symbol h) args))

/-- Several variables under a flat head without order are matched once for each way to distribute
the positions of the arguments among that many blocks that are not empty. A smaller first block comes
first, then the one with the smaller positions; the other blocks follow in the same manner. -/
theorem enumeratedBy_partitions (flat : (ev.attributes h).flat = true)
    (orderless : (ev.attributes h).orderless = true) (notSequence : h ≠ "Sequence")
    (ordinary : Construct.ofName? h = none) (distinct : names.Nodup) (several : 2 ≤ names.length)
    (apart : ∀ t ∈ args, t.isSequence = false) : ∃ ways, EnumeratedBy ev h names args ways := by
  have ascending : (List.range args.length).Pairwise (· < ·) := List.pairwise_lt_range
  have earlier := pairwise_partitions ascending names.length
  have compiled (cell : Position) := compileAt_toTerm (isOrdinary_singles ordinary names) cell
  refine ⟨partitions names.length (List.range args.length), ?_, earlier.imp PartitionEarlier.ne,
    earlier, ?_, ?_, ?_, ?_⟩
  · exact fun blocks => mem_partitions ascending
  · intro few
    refine List.eq_nil_iff_forall_not_mem.mpr fun blocks member => ?_
    obtain ⟨length, isPartition⟩ := (mem_partitions ascending).mp member
    have bound := isPartition.length_le
    rw [List.length_range] at bound
    omega
  · intro j
    refine ⟨_, compiled [], ?_⟩
    rw [Pattern.allMatches_eq, (singles h names).explicit_toPattern.answers_solutions,
      values_singles flat orderless notSequence distinct several apart, List.map_map]
    rfl
  · intro j
    have made : Rule.make [0] (singles h names).toTerm (.list (names.map .symbol)) false =
        .ok ⟨(singles h names).toPattern, (singles h names).toTerm, .list (names.map .symbol), false⟩ := by
      rw [Rule.make, compiled [0]]
      rfl
    rw [replaceList_rule made,
      allResults_singles flat orderless notSequence distinct several apart rfl rfl]
  · intro new blocks member
    have length := ((mem_partitions ascending).mp member).1
    exact substitute_singles notSequence distinct apart new length

/-- The ways in which `x_ + y_` matches `a + b + c`. -/
theorem enumeratedBy_sum : ∃ ways, EnumeratedBy Rule.sums "Plus" ["x", "y"]
    [.symbol "a", .symbol "b", .symbol "c"] ways :=
  enumeratedBy_partitions rfl rfl (by decide) rfl (by decide) (by decide) (by decide)

end Schema

end TermRewriting
