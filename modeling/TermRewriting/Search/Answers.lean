import TermRewriting.Search.Run

/-! All answers of a search, as a list. A consumer that never stops sees exactly these. -/

namespace TermRewriting.Search

/-- The answers in order, and the journal after the last of them. -/
@[grind =]
def answers : Search α → Journal → List α × Journal
  | .done, j => ([], j)
  | .found a next, j =>
    let (rest, j) := answers (next ()) j
    (a :: rest, j)
  | .note n next, j => answers (next ()) (j.note n)
  | .inherit p declared next, j =>
    let (options, j) := j.inherit p declared
    answers (next options) j

theorem answers_append (s : Search α) (t : Unit → Search α) (j : Journal) :
    (s.append t).answers j =
      ((s.answers j).1 ++ ((t ()).answers (s.answers j).2).1, ((t ()).answers (s.answers j).2).2) := by
  induction s generalizing j with
  | done => simp [append, answers]
  | found a next ih => simp [append, answers, ih]
  | note n next ih => simp [append, answers, ih]
  | inherit p declared next ih => simp [append, answers, ih]

theorem answers_map (f : α → β) (s : Search α) (j : Journal) :
    (s.map f).answers j = ((s.answers j).1.map f, (s.answers j).2) := by
  induction s generalizing j with
  | done => rfl
  | found a next ih => simp [Search.map, answers, ih]
  | note n next ih => simp [Search.map, answers, ih]
  | inherit p declared next ih => simp [Search.map, answers, ih]

theorem answers_bind_ofOption (f : α → Option β) (s : Search α) (j : Journal) :
    (s.bind fun a => ofOption (f a)).answers j = ((s.answers j).1.filterMap f, (s.answers j).2) := by
  induction s generalizing j with
  | done => rfl
  | found a next ih =>
    rw [Search.bind, answers_append, answers, ih]
    cases eq : f a <;> simp [ofOption, one, answers, eq]
  | note n next ih => simp [Search.bind, answers, ih]
  | inherit p declared next ih => simp [Search.bind, answers, ih]

theorem runFrom_all (s : Search α) (seen : Array α) (j : Journal) :
    s.runFrom .all seen j = ⟨seen ++ (s.answers j).1.toArray, none, (s.answers j).2⟩ := by
  induction s generalizing seen j with
  | done => simp [runFrom, answers]
  | found a next ih => simp [runFrom, answers, Strategy.all, ih]
  | note n next ih => simp [runFrom, answers, ih]
  | inherit p declared next ih => simp [runFrom, answers, ih]

theorem collect_none (s : Search α) (j : Journal) : s.collect none j = s.answers j := by
  simp [collect, run, runFrom_all]

end TermRewriting.Search
