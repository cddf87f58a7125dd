import AccessControl.Error
import AccessControl.Store.Line
/-!
# Stores

A store keeps lines where they outlive the model.  It can at least be read and written as a whole;
every other operation it may lack, and then answers `notSupported`.

An operation gives its answer and the store after it.  The section of a row is passed along, though
its name already tells it.

A store does not see the model that it loads into.  It only says which lines there are and why there may be no
more, and `Model.addLines` puts them into the model, one by one and up to the first that does not fit.  So the
stores covered are those that load that way, such as the ones in memory and in files; one that does anything
else to a model while it loads, such as to define something, is none of them.
-/

namespace AccessControl

/-- What comes out of a store: lines in order, and why there are no more if that is not the end. -/
structure Reading where
  lines : List Line := []
  failure : Option StoreError := none
  deriving Repr, DecidableEq

/-- The operations of a store that loads line by line. -/
class PolicyStore (σ : Type) where
  /-- All lines. -/
  read : σ → Reading
  /-- The lines that a filter accepts. -/
  readFiltered : σ → Filter → Reading := fun _ _ => { failure := some (.notSupported .loadFiltered) }
  /-- Notes that a reading went into a model, and whether it was a filtered one. -/
  noteLoad : σ → Bool → σ := fun s _ => s
  /-- Whether the last load was a filtered one. -/
  isFiltered : σ → Bool := fun _ => false
  /-- Puts lines in the place of all that is there. -/
  save : σ → List Line → Except StoreError Unit × σ
  /-- Drops all lines. -/
  clear : σ → Except StoreError Unit × σ := fun s => (.error (.notSupported .clear), s)
  add : σ → (sec name : String) → Row → Except StoreError Bool × σ :=
    fun s _ _ _ => (.error (.notSupported .add), s)
  addMany : σ → (sec name : String) → List Row → Except StoreError Bool × σ :=
    fun s _ _ _ => (.error (.notSupported .addMany), s)
  remove : σ → (sec name : String) → Row → Except StoreError Bool × σ :=
    fun s _ _ _ => (.error (.notSupported .remove), s)
  removeMany : σ → (sec name : String) → List Row → Except StoreError Bool × σ :=
    fun s _ _ _ => (.error (.notSupported .removeMany), s)
  removeFiltered : σ → (sec name : String) → Nat → List String → Except StoreError Bool × σ :=
    fun s _ _ _ _ => (.error (.notSupported .removeFiltered), s)
  update : σ → (sec name : String) → (old new : Row) → Except StoreError Bool × σ :=
    fun s _ _ _ _ => (.error (.notSupported .update), s)

namespace PolicyStore

variable {σ : Type} [PolicyStore σ]

/-- Puts a reading into a model.  Lines that came before a failure stay there. -/
def finishLoad (s : σ) (filtered : Bool) (reading : Reading) (m : Model) :
    Except Error Unit × Model × σ :=
  match m.addLines reading.lines with
  | (.error e, m) => (.error e, m, s)
  | (.ok (), m) =>
    match reading.failure with
    | some e => (.error (.store e), m, s)
    | none => (.ok (), m, noteLoad s filtered)

/-- Loads all lines into a model. -/
def load (s : σ) (m : Model) : Except Error Unit × Model × σ := finishLoad s false (read s) m

/-- Loads the lines that a filter accepts into a model. -/
def loadFiltered (s : σ) (filter : Filter) (m : Model) : Except Error Unit × Model × σ :=
  finishLoad s true (readFiltered s filter) m

end PolicyStore

end AccessControl
