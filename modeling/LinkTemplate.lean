import LinkTemplate.Session
import LinkTemplate.Proofs.Pattern.Expression
import LinkTemplate.Proofs.Captures.Decoding
import LinkTemplate.Proofs.Template.RoundTrip
import LinkTemplate.Proofs.Template.Captures
import LinkTemplate.Proofs.Template.Unreserved
import LinkTemplate.Proofs.Template.FinalSlash
import LinkTemplate.Proofs.Template.SettledFront
import LinkTemplate.Proofs.Error
