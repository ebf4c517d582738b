import Velosearch.Cluster.Allocation.Runs

/-!
# The life of an allocation id

What `Runs` says of allocation ids asks that the shards of an index are laid alike. This is what
holds of every run: whatever is asked of a table in whatever order, an id is one entry's,
of one shard, from when it is drawn until it is gone, and then it is not seen again.
-/

set_option autoImplicit false

namespace Velosearch.Cluster.Allocation

variable {ids : Nat → String} {b : Board}

/-- The shards that have an entry under an id. -/
def Board.Holds (b : Board) (id : String) (index : String) (shard : Nat) : Prop :=
  ∃ c ∈ b.copies index shard, c.allocationId = some id

theorem run_append (ops ops' : List Op) : b.run ids (ops ++ ops') = (b.run ids ops).run ids ops' :=
  List.foldl_append

/-- An id that was there before and is there now was there all the time, in one shard. -/
theorem Stems.held {b' b'' : Board} (told : Told ids b) (stems : Stems (fun _ => False) ids b b')
    (stems' : Stems (fun _ => False) ids b' b'') {id index index' : String} {shard shard' : Nat}
    (was : b.Holds id index shard) (is : b''.Holds id index' shard') :
    (index = index' ∧ shard = shard') ∧ b'.Holds id index shard := by
  obtain ⟨a, ha, hida⟩ := was
  obtain ⟨c, hc, hidc⟩ := is
  have old : ∀ n, b.drawn ≤ n → id ≠ ids n := by
    rintro n later rfl
    exact (told.tidy index shard).spent a ha n later hida
  rcases stems'.known index' shard' c hc id hidc with ⟨x, hx, hidx, -⟩ | ⟨n, hn, -, drawn⟩
  · rcases stems.known index' shard' x hx id hidx with ⟨y, hy, hidy, -⟩ | ⟨n, hn, -, drawn⟩
    · obtain ⟨rfl, rfl⟩ := told.scattered _ _ _ _ a ha y hy id hida hidy
      exact ⟨⟨rfl, rfl⟩, x, hx, hidx⟩
    · exact absurd drawn (old n hn)
  · exact absurd drawn (old n (stems.later.trans hn))

/-- **An allocation id lives once**: in every run, of any operations in any order, no two entries
of a table bear one id, an id is never seen in two shards, and one that is gone from the table
does not come back to it. -/
theorem ids_live_once (inj : Function.Injective ids) (start : Told ids b) (ops : List Op) :
    (b.run ids ops).Distinct ∧
      ∀ before mid after, ops = before ++ mid ++ after → ∀ id index shard index' shard',
        (b.run ids before).Holds id index shard → (b.run ids ops).Holds id index' shard' →
          (index = index' ∧ shard = shard') ∧
            (b.run ids (before ++ mid)).Holds id index shard := by
  refine ⟨(run_stays_told inj start ops).1.distinct, ?_⟩
  rintro before mid after rfl id index shard index' shard' was is
  have first := (run_stays_told inj start before).1
  obtain ⟨second, stems⟩ := run_stays_told inj first mid
  rw [run_append, run_append] at is
  rw [run_append]
  exact Stems.held first stems (run_stays_told inj second after).2 was is

/-- The run that takes an id along to another node: it is still one entry's, in its shard. -/
theorem ids_live_once_moved :
    let ops := twoMoving ++ [.started "books" 0 (tally 2), .reroute (closing ["b"] ["a"] 2 0)]
    (Board.blank.run tally ops).Distinct ∧ (Board.blank.run tally ops).Holds (tally 1) "books" 1 ∧
      (Board.blank.run tally twoMoving).Holds (tally 1) "books" 1 := by
  intro ops
  have held : (Board.blank.run tally ops).Holds (tally 1) "books" 1 := by
    unfold Board.Holds
    decide +kernel
  have was : (Board.blank.run tally (twoMoving.take 3)).Holds (tally 1) "books" 1 := by
    unfold Board.Holds
    decide +kernel
  obtain ⟨distinct, all⟩ := ids_live_once tally_injective blank_told ops
  exact ⟨distinct, held, (all (twoMoving.take 3) (twoMoving.drop 3) _ rfl _ _ _ _ _ was held).2⟩

end Velosearch.Cluster.Allocation
