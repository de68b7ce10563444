import PublishDesk.Url.Numeric

/-!
# Addresses to listen at

An address is four decimal numbers with dots between them, or up to eight groups of hexadecimal
digits in brackets, perhaps with a scope, and a port behind a colon.
-/

namespace PublishDesk.Address

/-- A scope number in brackets, behind a percent sign. -/
def isScoped (cs : List Char) : Bool :=
  (Numeric.grouped? (cs.takeWhile (· != '%'))).isSome &&
    match cs.dropWhile (· != '%') with
    | [] => true
    | _ :: digits =>
      !digits.isEmpty && digits.all Char.isDigit && Text.decimalValue digits ≤ 0xffffffff

/-- Whether a host part can be listened at; the port is a number in any case. -/
def isValid (host : String) : Bool :=
  match host.toList with
  | '[' :: cs => cs.getLast? == some ']' && isScoped cs.dropLast
  | cs => (Numeric.dotted? cs).isSome

end PublishDesk.Address
