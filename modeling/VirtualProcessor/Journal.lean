/-!
# Results with a journal

Work that keeps a journal returns its result together with the notices it made on the way, also when it
fails. The result alone (`Reported.result`) follows the rules of `Except`, so that whoever is interested
in the result need not look at the notices.
-/

namespace VirtualProcessor

/-- How important a notice is. -/
inductive Level where
  | warn
  | info
  | debug
  | trace
deriving DecidableEq, Repr

def Level.name : Level → String
  | warn => "WARN"
  | info => "INFO"
  | debug => "DEBUG"
  | trace => "TRACE"

/-- Notices, oldest first, and the result of the work that made them. -/
structure Reported (ν ε α : Type) where
  notices : List ν
  result : Except ε α

namespace Reported

variable {ν ε α β : Type}

def succeed (a : α) : Reported ν ε α := ⟨[], .ok a⟩

def fail (e : ε) : Reported ν ε α := ⟨[], .error e⟩

/-- Makes one notice. -/
def note (n : ν) : Reported ν ε Unit := ⟨[n], .ok ()⟩

/-- Goes on with the result, unless the work has failed. -/
def andThen (r : Reported ν ε α) (f : α → Reported ν ε β) : Reported ν ε β :=
  match r.result with
  | .ok a => ⟨r.notices ++ (f a).notices, (f a).result⟩
  | .error e => ⟨r.notices, .error e⟩

instance : Monad (Reported ν ε) where
  pure := succeed
  bind := andThen

@[simp] theorem result_pure (a : α) : (pure a : Reported ν ε α).result = .ok a := rfl

@[simp] theorem result_fail (e : ε) : (fail e : Reported ν ε α).result = .error e := rfl

@[simp] theorem result_note (n : ν) : (note n : Reported ν ε Unit).result = .ok () := rfl

/-- The result of a sequence is the sequence of the results. -/
@[simp] theorem result_bind (r : Reported ν ε α) (f : α → Reported ν ε β) :
    (r >>= f).result = r.result >>= fun a => (f a).result := by
  show (andThen r f).result = _
  unfold andThen
  cases r.result <;> rfl

end Reported

end VirtualProcessor
