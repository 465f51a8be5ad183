import GlusterFS.Lib.Run
import GlusterFS.Dht.Layout

/-!
# DHT: the sort of a layout in place

`dht_layout_sort` has two loops over the indices of the array, and swaps two entries field by
field.  It leaves in the array what the sort of the list gives (`dhtLayoutSort_eq`).
-/

namespace GlusterFS.Dht.InPlace

open ExchangeSort Run List

def dhtLayoutEntrySwap (list : List LayoutEntry) (i j : Nat) : Option (List LayoutEntry) := do
  let e ← list[i]?
  let e' ← list[j]?
  return (list.set i
    { e with start := e'.start, stop := e'.stop, xlator := e'.xlator, err := e'.err }).set j
    { e' with start := e.start, stop := e.stop, xlator := e.xlator, err := e.err }

/-- The body of the loops; an index outside the array gives no list. -/
def exchange (i : Nat) (list : List LayoutEntry) (j : Nat) : Option (List LayoutEntry) := do
  let e ← list[i]?
  let e' ← list[j]?
  if 0 < dhtLayoutEntryCmp e e' then dhtLayoutEntrySwap list i j else some list

/-- The inner loop. -/
def exchangeAll (list : List LayoutEntry) (i : Nat) : Option (List LayoutEntry) :=
  run (exchange i) list (range' (i + 1) (list.length - (i + 1)))

def dhtLayoutSort (layout : DhtLayout) : Option DhtLayout :=
  (run exchangeAll layout.list (range' 0 (layout.list.length - 1))).map
    (fun list => { layout with list := list })

variable (front : List LayoutEntry) (x : LayoutEntry)

theorem exchange_eq (passed : List LayoutEntry) (y : LayoutEntry) (todo : List LayoutEntry) :
    exchange front.length (front ++ x :: (passed ++ y :: todo))
        (front.length + 1 + passed.length) =
      some (if entryGt x y then front ++ y :: (passed ++ x :: todo)
        else front ++ x :: (passed ++ y :: todo)) := by
  have hidx : front.length + 1 + passed.length = front.length + (passed.length + 1) := by omega
  rw [hidx]
  by_cases hgt : 0 < dhtLayoutEntryCmp x y
  · simp [exchange, dhtLayoutEntrySwap, entryGt, hgt]
  · simp [exchange, entryGt, hgt]

theorem run_exchange (passed todo : List LayoutEntry) :
    run (exchange front.length) (front ++ x :: (passed ++ todo))
        (range' (front.length + 1 + passed.length) todo.length) =
      some (front ++ (exchangePass entryGt x todo).1 ::
        (passed ++ (exchangePass entryGt x todo).2)) := by
  induction todo generalizing x passed with
  | nil => simp [exchangePass]
  | cons y todo ih =>
    rw [length_cons, range'_succ, run_cons, exchange_eq, Option.bind_some, exchangePass]
    split_ifs with hgt
    · have hrest := ih y (passed ++ [x])
      simpa [Nat.add_assoc] using hrest
    · have hrest := ih x (passed ++ [y])
      simpa [Nat.add_assoc] using hrest

theorem run_exchangeAll (xs : List LayoutEntry) :
    run exchangeAll (front ++ xs) (range' front.length (xs.length - 1)) =
      some (front ++ exchangeLoop entryGt xs.length xs) := by
  induction hn : xs.length generalizing front xs with
  | zero => simp [exchangeLoop]
  | succ n ih =>
    obtain ⟨x, xs, rfl⟩ := exists_cons_of_length_eq_add_one hn
    have hlen : xs.length = n := Nat.succ.inj hn
    have hrest : (exchangePass entryGt x xs).2.length = n := by rw [exchangePass_length, hlen]
    have hpass : exchangeAll (front ++ x :: xs) front.length =
        some (front ++ (exchangePass entryGt x xs).1 :: (exchangePass entryGt x xs).2) := by
      have hcnt : (front ++ x :: xs).length - (front.length + 1) = xs.length := by
        rw [length_append, length_cons]
        omega
      rw [exchangeAll, hcnt]
      exact run_exchange front x [] xs
    cases n with
    | zero =>
      rw [length_eq_zero_iff.mp hlen]
      rfl
    | succ n =>
      have hloop := ih (front ++ [(exchangePass entryGt x xs).1]) _ hrest
      rw [Nat.add_sub_cancel, range'_succ, run_cons, hpass, Option.bind_some, exchangeLoop]
      simpa using hloop

theorem dhtLayoutSort_eq (layout : DhtLayout) :
    dhtLayoutSort layout = some (Dht.dhtLayoutSort layout) := by
  have hrun := run_exchangeAll [] layout.list
  exact congrArg (Option.map (fun list => { layout with list := list })) hrun

/--
The sort ends, within the array, with the same entries in the order of their errors, and in the
order of their ranges where there is no error.
-/
theorem dhtLayoutSort_sorts (layout : DhtLayout) :
    ∃ sorted, dhtLayoutSort layout = some sorted ∧ sorted.list.Perm layout.list ∧
      sorted.list.Pairwise (fun e e' => e.err ≤ e'.err) ∧
      sorted.list.Pairwise (fun e e' => e.err = 0 → e'.err = 0 → e.start ≤ e'.start) := by
  have hsort := dhtLayoutSort_pairwise layout
  refine ⟨_, dhtLayoutSort_eq layout, dhtLayoutSort_perm layout, hsort.imp ?_, hsort.imp ?_⟩
  · intro e e' hle
    rw [entryGt_eq_false_iff] at hle
    omega
  · intro e e' hle herr herr'
    rw [entryGt_eq_false_iff] at hle
    rw [UInt32.le_iff_toNat_le]
    omega

end GlusterFS.Dht.InPlace
