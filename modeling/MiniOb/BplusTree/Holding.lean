import Mathlib.Data.List.Perm.Basic
import MiniOb.BplusTree.Log

/-! Pins, latches and the root lock: what is held is what the latch memo lists, and what the
function at hand took by itself and will give back. Failing calls keep this too; an abort ends
the process, and nothing is said about it. -/
namespace MiniOb.BplusTree
open Prog

variable {K α β : Type}

def Owes (extra : List MemoItem) (s : Handler K) : Prop := s.mtr.held.Perm (s.mtr.memo ++ extra)

theorem eraseAll {held taken rest : List MemoItem} (all : held.Perm (taken ++ rest)) : (taken.foldl List.erase held).Perm rest := by
  induction taken generalizing held with
  | nil => exact all
  | cons item taken ih =>
    refine ih ?_
    have fewer := all.erase item
    rwa [List.cons_append,List.erase_cons_head] at fewer

variable {extra : List MemoItem} {s : Handler K} {item : MemoItem} {m : TreeM K α}

theorem Owes.hold (owes : Owes extra s) (item : MemoItem) : Owes (item :: extra) (hold item s).2 :=
  (List.Perm.cons item owes).trans List.perm_middle.symm

theorem Owes.letGo (owes : Owes (item :: extra) s) : Owes extra (dropHeld item s) :=
  eraseAll (show s.mtr.held.Perm ([item] ++ (s.mtr.memo ++ extra)) from owes.trans List.perm_middle)

theorem Owes.memoize (owes : Owes (item :: extra) s) : Owes extra (memoize item s).2 := by
  refine owes.trans ?_
  show (s.mtr.memo ++ item :: extra).Perm (s.mtr.memo ++ [item] ++ extra)
  rw [List.append_assoc,List.singleton_append]

theorem Owes.releaseTo (owes : Owes extra s) (point : Nat) : Owes extra (releaseTo point s).2 := by
  refine eraseAll (owes.trans ?_)
  rw [← List.append_assoc]
  have parts := List.Perm.append_right (s.mtr.memo.drop point) (List.reverse_perm (s.mtr.memo.take point)).symm
  rw [List.take_append_drop] at parts
  exact List.Perm.append_right extra parts

/-! ### Programs that keep the balance -/

def Balanced (m : TreeM K α) : Prop := ∀ extra, Ensures Exit.isCode (Owes extra) m (fun _ => Owes extra) (Owes extra)

theorem balancedPure (a : α) : Balanced (pure a : TreeM K α) := fun _ => ensuresPure fun _ h => h

theorem balancedRead {f : Handler K → α} : Balanced (read f) := fun _ => ensuresRead fun _ h => h

theorem balancedExit (e : Exit) : Balanced (exit e : TreeM K α) := fun _ => ensuresExit fun _ h _ => h

theorem balancedBind {f : α → TreeM K β} (first : Balanced m) (rest : ∀ a, Balanced (f a)) : Balanced (m >>= f) :=
  fun extra => ensuresBind (first extra) fun a => rest a extra

theorem balancedInsist (h : Balanced m) : Balanced (insist m) := by
  intro extra s owes
  obtain ⟨done,-⟩ := h extra s owes
  unfold insist
  rcases ran : m s with ⟨r,t⟩
  cases r with
  | ok a => exact endedOk (done a t ran)
  | error e => exact endedError fun accepted => nomatch accepted

theorem balancedQuiet {f : Handler K → Handler K} (held : ∀ s, (f s).mtr.held = s.mtr.held)
    (memo : ∀ s, (f s).mtr.memo = s.mtr.memo) : Balanced (update f) :=
  fun _ => ensuresUpdate fun s owes => by
    unfold Owes
    rwa [held,memo]

theorem balancedFault : Balanced (fault : TreeM K Unit) := by
  intro extra s owes
  unfold fault
  split
  · exact endedOk owes
  · exact endedOk (Q := fun _ => Owes extra) owes
  · exact endedError fun _ => owes

theorem balancedLatch (item : MemoItem) : Balanced (latch item : TreeM K Unit) := fun extra =>
  ensuresBind (R := fun _ => Owes (item :: extra)) (ensuresUpdate fun _ owes => owes.hold item) fun _ =>
    ensuresUpdate fun _ owes => owes.memoize

theorem balancedGetPage (page : PageNum) : Balanced (getPage page : TreeM K Unit) := balancedBind balancedFault fun _ => balancedLatch _

theorem balancedMarkDirty (page : PageNum) : Balanced (markDirty page : TreeM K Unit) := balancedQuiet (fun _ => rfl) fun _ => rfl

theorem balancedSetNode {page : PageNum} : Balanced (setNode page node : TreeM K Unit) :=
  balancedQuiet (fun _ => rfl) fun _ => rfl

theorem balancedAppendLogEntry (entry : LogEntry) : Balanced (appendLogEntry entry : TreeM K Unit) :=
  balancedQuiet (fun s => by dsimp only; split <;> rfl) fun s => by dsimp only; split <;> rfl

theorem balancedLogged {entry : LogEntry} :
    Balanced (appendLogEntry entry >>= fun _ => setNode page node : TreeM K Unit) :=
  balancedBind (balancedAppendLogEntry _) fun _ => balancedSetNode

/-! ### Node handlers -/

theorem balancedSetParent (page parent : PageNum) : Balanced (IndexNodeHandler.setParentPageNum page parent : TreeM K Unit) :=
  balancedBind balancedRead fun _ => balancedLogged

theorem balancedLeafView (page : PageNum) : Balanced (LeafIndexNodeHandler.view page : TreeM K _) := by
  refine balancedBind balancedRead fun node => ?_
  cases node with
  | leaf parent next items => exact balancedPure _
  | internal parent items => exact balancedExit _

theorem balancedInternalView (page : PageNum) : Balanced (InternalIndexNodeHandler.view page : TreeM K _) := by
  refine balancedBind balancedRead fun node => ?_
  cases node with
  | leaf parent next items => exact balancedExit _
  | internal parent items => exact balancedPure _

variable (ops : KeyOps K)

namespace LeafIndexNodeHandler

theorem balancedSetNextPage (page next : PageNum) : Balanced (setNextPage page next : TreeM K Unit) :=
  balancedBind (balancedLeafView _) fun _ => balancedLogged

end LeafIndexNodeHandler

namespace InternalIndexNodeHandler

theorem balancedCreateNewRoot (page first : PageNum) (key : K) (child : PageNum) :
    Balanced (createNewRoot ops page first key child) :=
  balancedBind (balancedInternalView _) fun _ => balancedLogged

theorem balancedSetKeyAt (page : PageNum) (index : Nat) (key : K) : Balanced (setKeyAt ops page index key) := by
  refine balancedBind (balancedInternalView _) fun ⟨_,items⟩ => ?_
  dsimp only
  cases items[index]? with
  | none => exact balancedExit _
  | some item => exact balancedLogged

end InternalIndexNodeHandler

theorem balancedUpdateRoot (root : PageNum) : Balanced (updateRootPageNumLocked root : TreeM K Unit) :=
  balancedBind (balancedInsist (balancedGetPage _)) fun _ => balancedBind (balancedLatch _) fun _ => balancedBind balancedRead fun _ =>
    balancedBind (balancedAppendLogEntry _) fun _ => balancedBind (balancedQuiet (fun _ => rfl) fun _ => rfl) fun _ => balancedMarkDirty _

end MiniOb.BplusTree
