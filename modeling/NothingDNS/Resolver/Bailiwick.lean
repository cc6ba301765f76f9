import NothingDNS.Lib.DottedName
/-!
# Bailiwick (`internal/resolver/resolver.go:616-627`)

A server asked for a zone may only speak for names in that zone. Names are the
printed text of the wire name, with or without the final dot.
-/

namespace NothingDNS.Resolver

def norm (t : Text) : Text := t.trimDot.lower

def inBailiwick (name zone : Text) : Bool :=
  if norm zone = [] then true -- the root zone contains everything
  else norm name = norm zone ∨ ('.' :: norm zone) <:+ norm name

end NothingDNS.Resolver
