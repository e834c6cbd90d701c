/-!
# Cancellation tokens

Tokens form a tree. Cancelling a token cancels everything below it, so a token is
cancelled when it or one of its ancestors was.
-/
namespace FlowEngine

/-- A place in the tree of tokens: its own number before those of its ancestors. -/
structure Token where
  path : List Nat
deriving DecidableEq

instance : Inhabited Token := ⟨⟨[]⟩⟩

namespace Token

def root (number : Nat) : Token := ⟨[number]⟩

def child (t : Token) (number : Nat) : Token := ⟨number :: t.path⟩

/-- Whether cancelling the first token cancels the second one. -/
def covers (t u : Token) : Bool := t.path.isSuffixOf u.path

def isCancelled (cancelled : List Token) (t : Token) : Bool := cancelled.any fun c => c.covers t

theorem covers_self (t : Token) : t.covers t = true := by
  simp [covers]

theorem covers_child (t u : Token) (number : Nat) (h : t.covers u = true) :
    t.covers (u.child number) = true := by
  simp only [covers, List.isSuffixOf_iff_suffix] at h ⊢
  exact h.trans (List.suffix_cons number u.path)

theorem covers_trans {t u v : Token} (h₁ : t.covers u = true) (h₂ : u.covers v = true) :
    t.covers v = true := by
  simp only [covers, List.isSuffixOf_iff_suffix] at h₁ h₂ ⊢
  exact h₁.trans h₂

/-- What is cancelled stays so when more is cancelled. -/
theorem isCancelled_mono {older cancelled : List Token} {t : Token} (h : older <:+ cancelled)
    (ht : t.isCancelled older = true) : t.isCancelled cancelled = true := by
  obtain ⟨c, hc, hcovers⟩ := List.any_eq_true.mp ht
  exact List.any_eq_true.mpr ⟨c, h.subset hc, hcovers⟩

theorem isCancelled_of_covers {cancelled : List Token} {t u : Token} (h : t.covers u = true)
    (ht : t.isCancelled cancelled = true) : u.isCancelled cancelled = true := by
  obtain ⟨c, hc, hcovers⟩ := List.any_eq_true.mp ht
  exact List.any_eq_true.mpr ⟨c, hc, covers_trans hcovers h⟩

theorem isCancelled_child (cancelled : List Token) (t : Token) (number : Nat)
    (h : t.isCancelled cancelled = true) : (t.child number).isCancelled cancelled = true :=
  isCancelled_of_covers (covers_child t t number t.covers_self) h

/-- A token that was not cancelled itself is cancelled together with the one above it. -/
theorem isCancelled_of_child {cancelled : List Token} {t : Token} {number : Nat}
    (h : (t.child number).isCancelled cancelled = true) (hown : t.child number ∉ cancelled) :
    t.isCancelled cancelled = true := by
  obtain ⟨c, hc, hcovers⟩ := List.any_eq_true.mp h
  refine List.any_eq_true.mpr ⟨c, hc, ?_⟩
  simp only [covers, child, List.isSuffixOf_iff_suffix, List.suffix_cons_iff] at hcovers ⊢
  refine hcovers.resolve_left fun hsame => hown ?_
  rwa [show t.child number = c from (congrArg Token.mk hsame).symm]

end Token
end FlowEngine
