/-! Result codes. One type collects the `ISC_R_*` and `DNS_R_*` codes that the
modelled routines return. -/

namespace LbBind

inductive Result where
  | success
  | failure
  | noMore
  | noSpace
  | noMemory
  | notFound
  | exists
  | unchanged
  | notExact
  | nxrrset
  | singleton
  | partialMatch
  | continue
  | newOrigin
  | badLabelType
  | disallowed
  | badPointer
  | unexpectedEnd
  | nameTooLong
  | notImplemented
  | cnameAndOther
  | formErr
  | recoverable
  | range
  | unexpected
  | verifyFailure
  | unsupportedAlg
  | tsigVerifyFailure
  | tsigErrorSet
  | clockSkew
  | expectedTsig
  | unexpectedTsig
  | expectedResponse
  | notVerifiedYet
  | sigInvalid
  | noIdentity
  | ignore
  | notZoneTop
  | invalidNs
  | invalidNsec3
  | upToDate
  | extraData
  | notZone
  | refused
  | invalidTime
  | keyUnauthorized
  | sigFuture
  | sigExpired
  | fromWildcard
  | eof
  | unbalanced
  | unbalancedQuotes
  | badNumber
  | unexpectedToken
  | badHex
  | syntaxErr
  | extraToken
  | unknown
  | metatype
  | badBase64
  | emptyLabel
  | labelTooLong
  | badEscape
  | maskNonContig
  deriving DecidableEq

end LbBind
