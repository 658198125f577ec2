import Ucore.Lib.Ring

/-!
# `Libs.List` — `libs/list.h`

The intrusive doubly linked list, over a memory that maps each address of a `list_entry_t` to its two
pointers. Each operation performs its stores in the order of the C source, so that aliasing arguments
(an entry linked behind itself) give what the machine gives. The lemmas at the end say what each
operation does to the `next` side and to the `prev` side of the memory.
-/

namespace Ucore

variable {α : Type} [DecidableEq α]

structure ListEntry (α : Type) where
  prev : α
  next : α

/-- The memory of all `list_entry_t` objects. -/
abbrev ListMem (α : Type) := α → ListEntry α

namespace ListMem

def setPrev (m : ListMem α) (a x : α) : ListMem α := Function.update m a { m a with prev := x }

def setNext (m : ListMem α) (a x : α) : ListMem α := Function.update m a { m a with next := x }

end ListMem


def listNext (m : ListMem α) (listelm : α) : α := (m listelm).next


def listPrev (m : ListMem α) (listelm : α) : α := (m listelm).prev

def listEmpty (m : ListMem α) (list : α) : Bool := listNext m list = list

/-- `elm->prev = elm->next = elm` -/
def listInit (m : ListMem α) (elm : α) : ListMem α := (m.setNext elm elm).setPrev elm elm

/-- `__list_add`: `prev->next = next->prev = elm; elm->next = next; elm->prev = prev;` -/
def rawListAdd (m : ListMem α) (elm prev next : α) : ListMem α :=
  (((m.setPrev next elm).setNext prev elm).setNext elm next).setPrev elm prev

/-- `__list_del`: `prev->next = next; next->prev = prev;` -/
def rawListDel (m : ListMem α) (prev next : α) : ListMem α := (m.setNext prev next).setPrev next prev

def listAddAfter (m : ListMem α) (listelm elm : α) : ListMem α :=
  rawListAdd m elm listelm (listNext m listelm)

def listAddBefore (m : ListMem α) (listelm elm : α) : ListMem α :=
  rawListAdd m elm (listPrev m listelm) listelm

def listAdd (m : ListMem α) (listelm elm : α) : ListMem α := listAddAfter m listelm elm

def listDel (m : ListMem α) (listelm : α) : ListMem α :=
  rawListDel m (listPrev m listelm) (listNext m listelm)

/-! ## The two sides of each operation -/

theorem listNext_setPrev (m : ListMem α) (a x : α) : listNext (m.setPrev a x) = listNext m := by
  funext y
  by_cases h : y = a
  · subst h; simp [listNext, ListMem.setPrev]
  · simp [listNext, ListMem.setPrev, Function.update_of_ne h]

theorem listNext_setNext (m : ListMem α) (a x : α) :
    listNext (m.setNext a x) = Function.update (listNext m) a x := by
  funext y
  by_cases h : y = a
  · subst h; simp [listNext, ListMem.setNext]
  · simp [listNext, ListMem.setNext, Function.update_of_ne h]

theorem listPrev_setPrev (m : ListMem α) (a x : α) :
    listPrev (m.setPrev a x) = Function.update (listPrev m) a x := by
  funext y
  by_cases h : y = a
  · subst h; simp [listPrev, ListMem.setPrev]
  · simp [listPrev, ListMem.setPrev, Function.update_of_ne h]

theorem listPrev_setNext (m : ListMem α) (a x : α) : listPrev (m.setNext a x) = listPrev m := by
  funext y
  by_cases h : y = a
  · subst h; simp [listPrev, ListMem.setNext]
  · simp [listPrev, ListMem.setNext, Function.update_of_ne h]

theorem listNext_listInit (m : ListMem α) (elm : α) :
    listNext (listInit m elm) = Function.update (listNext m) elm elm := by
  rw [listInit, listNext_setPrev, listNext_setNext]

theorem listNext_rawListAdd (m : ListMem α) (elm prev next : α) :
    listNext (rawListAdd m elm prev next)
      = Function.update (Function.update (listNext m) prev elm) elm next := by
  rw [rawListAdd, listNext_setPrev, listNext_setNext, listNext_setNext, listNext_setPrev]

theorem listPrev_rawListAdd (m : ListMem α) (elm prev next : α) :
    listPrev (rawListAdd m elm prev next)
      = Function.update (Function.update (listPrev m) next elm) elm prev := by
  rw [rawListAdd, listPrev_setPrev, listPrev_setNext, listPrev_setNext, listPrev_setPrev]

theorem listNext_listDel (m : ListMem α) (x : α) :
    listNext (listDel m x) = Function.update (listNext m) (listPrev m x) (listNext m x) := by
  rw [listDel, rawListDel, listNext_setPrev, listNext_setNext]

theorem listPrev_listDel (m : ListMem α) (x : α) :
    listPrev (listDel m x) = Function.update (listPrev m) (listNext m x) (listPrev m x) := by
  rw [listDel, rawListDel, listPrev_setPrev, listPrev_setNext]

end Ucore
